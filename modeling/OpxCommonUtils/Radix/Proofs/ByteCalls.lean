import OpxCommonUtils.Radix.Proofs.ByteReads

/-!
# The calls and the ends of the keys

`std_radix_insert` and `std_radix_getnext` read the bytes of a key only. The other routines read one
byte more for some calls of full length (`byte_reads_iff`): `rdx_compare_address` reads the byte of
the bit behind the key before it masks it. The stored copy of a converted key has that byte, as
`std_radix_insert` allocates it, but `rtt->temp` has not.
-/

namespace OpxCommonUtils.Radix

open Tree Trie LinkTree RtTable

/-! ## What comes after a query -/

/-- The prefix `K` is stored. -/
def Stores (rtt : RtTable) (K : List Bool) : Prop :=
  ∃ p n a, rtt.nodes.get p = some n ∧ n.rtnRth ≠ NULL ∧
    (rtt.heads n.rtnRth).rdxRthAddr = some a ∧ firstBits (bitAt a) n.rtnBit = K

/-- A stored prefix of `K` is left by `K` to the right, where nothing is stored, while something is
stored to the left. -/
def LeadsAstray (rtt : RtTable) (K : List Bool) : Prop :=
  ∃ k, Stores rtt k ∧ k ++ [true] <+: K ∧ (∀ K', Stores rtt K' → ¬ k ++ [true] <+: K') ∧
    ∃ K', Stores rtt K' ∧ k ++ [false] <+: K'

/-- No stored prefix is greater than `K`, and none leads it astray. -/
def NothingAfter (rtt : RtTable) (K : List Bool) : Prop :=
  (∀ K', Stores rtt K' → ¬ K < K') ∧ ¬ LeadsAstray rtt K

section
variable {rtt : RtTable} {t : Tree RtVal}

theorem Shape.stores_iff (hs : Shape rtt t) {K : List Bool} :
    Stores rtt K ↔ ∃ x, (K, x) ∈ entries (view rtt.heads) t := by
  constructor
  · rintro ⟨p, n, a, hget, h0, ha, hK⟩
    obtain ⟨c, v, l, r, heq, rfl⟩ := hs.locate hget
    exact ⟨(p, v), mem_entries.mpr ⟨Shape.mem_of_plug heq, hK ▸ key_view_of_addr h0 ha⟩⟩
  · rintro ⟨⟨p, v⟩, hx⟩
    obtain ⟨hmem, hkey⟩ := mem_entries.mp hx
    have h0 : v.rth ≠ NULL := by
      refine (key_view_eq_none (hs.linked _ hmem)).not.mp ?_
      rw [hkey]
      exact Option.some_ne_none _
    obtain ⟨a, ha⟩ := (hs.linked _ hmem).addr h0
    obtain ⟨c, l, r, heq⟩ := exists_plug_of_mem_pre hmem
    refine ⟨p, _, a, hs.get_node heq, h0, ha, ?_⟩
    exact Option.some.inj ((key_view_of_addr h0 ha).symm.trans hkey)

theorem Shape.leadsAstray_iff (hs : Shape rtt t) {K : List Bool} :
    LeadsAstray rtt K ↔ Trie.Astray (view rtt.heads) t K := by
  simp only [LeadsAstray, Trie.Astray, hs.stores_iff]
  constructor
  · rintro ⟨k, ⟨x, hx⟩, hK, hright, K', ⟨x', hx'⟩, hleft⟩
    refine ⟨k, x, hx, hK, ?_, (K', x'), hx', hleft⟩
    exact fun e he => hright e.1 ⟨e.2, he⟩
  · rintro ⟨k, x, hx, hK, hright, e, he, hleft⟩
    refine ⟨k, ⟨x, hx⟩, hK, ?_, e.1, ⟨e.2, he⟩, hleft⟩
    rintro K' ⟨x', hx'⟩
    exact hright (K', x') hx'

/-- `std_radix_getnext` returns no head for a query of full length if and only if nothing comes
after it. -/
theorem Shape.getnext_eq_null (hs : Shape rtt t) (hdebug : rtt.rttDebug = false)
    (hshort : ∀ p n, rtt.nodes.get p = some n → n.rtnBit ≤ rtt.rttMaxaddrlen)
    (hmax : rtt.rttMaxaddrlen ≤ 65528) (addr : Addr) :
    rtt.stdRadixGetnext (some addr) rtt.rttMaxaddrlen = .ok NULL ↔
      NothingAfter rtt (firstBits (bitAt (rtt.queryAddr addr)) rtt.rttMaxaddrlen) := by
  unfold stdRadixGetnext NothingAfter
  rw [hs.leadsAstray_iff]
  simp only [hs.stores_iff, hdebug, Bool.false_and, Bool.false_eq_true, if_false]
  by_cases hroot : rtt.rttRoot = NULL
  · rw [if_pos hroot]
    obtain rfl := hs.root_eq_null.mp hroot
    refine iff_of_true rfl ⟨?_, ?_⟩
    · rintro K' ⟨x, hx⟩
      cases hx
    · rintro ⟨k, x, hx, -⟩
      cases hx
  rw [if_neg hroot]
  obtain ⟨f, c, near, his, hl, -, -, hcases⟩ :=
    hs.nextStart_cases (hs.root_eq_null.not.mp hroot) (rtt.queryAddr addr) hmax
  rcases hcases with ⟨hlong, -⟩ | ⟨-, p, rest, hstart, hcur, hrest⟩
  · -- no node is longer than the query
    obtain ⟨m, hm, -, hbit, -⟩ := hs.deref_frame hl.plug_eq
    have hle := hshort _ _ (Heap.deref_eq_ok.mp hm)
    omega
  have hlinked : ∀ x ∈ rest, Linked rtt.heads x := fun x hx =>
    hs.linked x (hcur.sublist.subset hx)
  have hfirst : firstRth rest = NULL ↔ entriesOf (view rtt.heads) rest = [] := by
    rw [firstRth_eq hlinked]
    cases hes : entriesOf (view rtt.heads) rest with
    | nil => exact iff_of_true rfl rfl
    | cons e es =>
      have he : e ∈ entriesOf (view rtt.heads) rest := hes ▸ List.mem_cons_self
      obtain ⟨x, hx, hkey⟩ := List.mem_filterMap.mp he
      obtain ⟨k, hk, rfl⟩ := Option.map_eq_some_iff.mp hkey
      refine iff_of_false (fun h0 => ?_) (List.cons_ne_nil _ _)
      rw [(key_view_eq_none (hlinked x hx)).mpr h0] at hk
      cases hk
  simp only [hstart, exec_bind_ok]
  rw [hs.firstHead_runs hcur, Except.ok.injEq, hfirst]
  rcases hrest with ⟨hast, P, hpre, hle, hlt⟩ | ⟨hast, e, es, -, hes⟩
  · rw [and_iff_left hast]
    have hent : entries (view rtt.heads) t =
        entriesOf (view rtt.heads) P ++ entriesOf (view rtt.heads) rest := by
      rw [← entriesOf_pre, hpre, entriesOf_append]
    constructor
    · rintro hnone K' ⟨x, hx⟩ hK'
      rw [hent, hnone, List.append_nil] at hx
      exact absurd (hle _ hx) (not_le_of_gt hK')
    · intro hnothing
      refine List.eq_nil_iff_forall_not_mem.mpr fun e he => ?_
      refine hnothing e.1 ⟨e.2, ?_⟩ (hlt e he)
      rw [hent]
      exact List.mem_append_right _ he
  · exact iff_of_false (by simp [hes]) fun h => h.2 hast

/-- What the search for a head finds is the head of a node. -/
theorem firstHead_of_node {nodes : Heap RtNode} : ∀ (fuel : Nat) {p r : Ptr},
    firstHead nodes fuel p = .ok r → r ≠ NULL → ∃ q n, nodes.get q = some n ∧ n.rtnRth = r := by
  intro fuel
  induction fuel with
  | zero =>
    intro p r hrun
    cases hrun
  | succ fuel ih =>
    intro p r hrun h0
    rw [firstHead] at hrun
    split at hrun
    · exact absurd (Except.ok.inj hrun).symm h0
    · obtain ⟨n, hn, hrun⟩ := exec_bind_eq_ok.mp hrun
      split at hrun
      · exact ⟨p, n, Heap.deref_eq_ok.mp hn, Except.ok.inj hrun⟩
      · obtain ⟨next, -, hrun⟩ := exec_bind_eq_ok.mp hrun
        exact ih hrun h0

/-- The key of a head that `std_radix_getnext` returns can be read. -/
theorem Shape.getnext_addr (hs : Shape rtt t) (hdebug : rtt.rttDebug = false) {dest : Option Addr}
    {n : Nat} {r : Ptr} (hrun : rtt.stdRadixGetnext dest n = .ok r) (h0 : r ≠ NULL) :
    ∃ a, rtt.rdxAddr r = .ok a := by
  unfold stdRadixGetnext at hrun
  simp only [hdebug, Bool.false_and, Bool.false_eq_true, if_false] at hrun
  split at hrun
  · exact absurd (Except.ok.inj hrun).symm h0
  have hfound : ∀ {p : Ptr}, firstHead rtt.nodes (rtt.nodes.bound + 1) p = .ok r →
      ∃ a, rtt.rdxAddr r = .ok a := by
    intro p hrun
    obtain ⟨q, n, hq, rfl⟩ := firstHead_of_node _ hrun h0
    exact hs.rdxAddr_node hq h0
  cases dest with
  | none => exact hfound hrun
  | some dest =>
    obtain ⟨rtn, -, hrun⟩ := exec_bind_eq_ok.mp hrun
    exact hfound hrun

/-- `std_radix_getexact` finds nothing for a query of full length whose bits lead to no node of full
length. -/
theorem Shape.getexact_eq_null (hs : Shape rtt t) (hdebug : rtt.rttDebug = false)
    (hbits : BitsOk rtt.nodes rtt.rttMaxaddrlen) {addr : Addr} (hfull : ¬ FullLed rtt addr) :
    rtt.stdRadixGetexact (some addr) rtt.rttMaxaddrlen = .ok NULL := by
  unfold stdRadixGetexact
  simp only [hdebug, Bool.false_and, Bool.false_eq_true, if_false]
  split
  · rfl
  next hroot =>
  obtain ⟨r, n, hdesc, hget⟩ := hs.landing hroot addr rtt.rttMaxaddrlen
  have hne := (fullLed_iff hbits hdesc hget).not.mp hfull
  rw [hdesc, exec_bind_ok, Heap.deref_ok hget, exec_bind_ok, if_pos (by simp [hne])]
  rfl

namespace Reads

variable {bitlen : Nat}

/-- `_std_radix_getsubtree` compares the key of the next head, at the length of the query, when the
prefix itself is not there. -/
theorem inside_getsubtree (hs : Shape rtt t) (hbits : BitsOk rtt.nodes rtt.rttMaxaddrlen)
    (h8 : rtt.rttMaxaddrlen % 8 = 0) (hlen : bitlen ≤ rtt.rttMaxaddrlen)
    (hdebug : rtt.rttDebug = false) (hmax : rtt.rttMaxaddrlen ≤ 65528) (addr : Addr) :
    Inside rtt.rttMaxaddrlen (stdRadixGetsubtree rtt (some addr) bitlen) ↔
      (bitlen = rtt.rttMaxaddrlen → ¬ FullLed rtt addr ∧
        NothingAfter rtt (firstBits (bitAt (rtt.queryAddr addr)) bitlen)) := by
  have hexact := inside_getexact hs hbits h8 hlen hdebug addr
  have hnext := inside_getnext hbits h8 hlen hdebug (some addr)
  unfold stdRadixGetsubtree
  simp only [hdebug, Bool.false_and, Bool.false_eq_true, if_false]
  split
  · next hroot =>
    refine iff_of_true (Traced.all_pure _) ?_
    rintro rfl
    refine ⟨fun hfull => fullLed_root_ne hbits hfull hroot, ?_⟩
    refine (hs.getnext_eq_null hdebug hbits.short hmax addr).mp ?_
    unfold RtTable.stdRadixGetnext
    simp only [hdebug, Bool.false_and, Bool.false_eq_true, if_false]
    rw [if_pos hroot]
    rfl
  constructor
  · rintro hinside rfl
    obtain ⟨hfirst, hrest⟩ := Traced.all_bind.mp hinside
    have hfull := hexact.mp hfirst rfl
    refine ⟨hfull, (hs.getnext_eq_null hdebug hbits.short hmax addr).mp ?_⟩
    have hrest := hrest NULL
      ((result_stdRadixGetexact ..).trans (hs.getexact_eq_null hdebug hbits hfull))
    rw [if_neg (not_not.mpr rfl)] at hrest
    obtain ⟨r, hr⟩ := hs.getnext_runs hdebug (some addr) hmax
    by_cases h0 : r = NULL
    · rw [hr, h0]
    · obtain ⟨a, ha⟩ := hs.getnext_addr hdebug hr h0
      have hhead := (Traced.all_bind.mp hrest).2 r ((result_stdRadixGetnext ..).trans hr)
      rw [if_neg h0] at hhead
      have hcompare := (Traced.all_bind.mp ((Traced.all_bind.mp hhead).2 a ha)).1
      have hlt := (inside_rdxCompareAddress h8).mp hcompare
      omega
  · intro hcond
    refine .bind (hexact.mpr fun heq => (hcond heq).1) fun rth hrth => ?_
    split
    · exact .lift_bind fun _ _ => Traced.all_pure _
    refine .bind hnext fun r hr => ?_
    split
    · exact Traced.all_pure _
    next h0 =>
    -- a head is found, so the query is not of full length
    have hlt : bitlen < rtt.rttMaxaddrlen := by
      refine lt_of_le_of_ne hlen ?_
      rintro rfl
      have hnull := (hs.getnext_eq_null hdebug hbits.short hmax addr).mpr (hcond rfl).2
      exact h0 (Except.ok.inj (hr.symm.trans ((result_stdRadixGetnext ..).trans hnull)))
    refine .lift_bind fun his _ => .bind ((inside_rdxCompareAddress h8).mpr hlt) fun _ _ => ?_
    split
    · exact Traced.all_pure _
    · exact .lift_bind fun _ _ => Traced.all_monadLift _

theorem inside_getsubtree_none (hbits : BitsOk rtt.nodes rtt.rttMaxaddrlen)
    (h8 : rtt.rttMaxaddrlen % 8 = 0) (hlen : bitlen ≤ rtt.rttMaxaddrlen)
    (hdebug : rtt.rttDebug = false) :
    Inside rtt.rttMaxaddrlen (stdRadixGetsubtree rtt none bitlen) := by
  unfold stdRadixGetsubtree
  simp only [hdebug, Bool.false_and, Bool.false_eq_true, if_false]
  split
  · exact Traced.all_pure _
  refine .bind (Traced.all_monadLift _) fun rth _ => ?_
  split
  · exact .lift_bind fun _ _ => Traced.all_pure _
  refine .bind (inside_getnext hbits h8 hlen hdebug none) fun r _ => ?_
  split
  · exact Traced.all_pure _
  · exact .lift_bind fun _ _ => Traced.all_monadLift _

end Reads

end

/-! ## Insertion -/

/-- The climb to the place of a key ends at a node that is as long as the difference. -/
theorem insertClimb_le {nodes : Heap RtNode} {dbit : Nat} : ∀ (fuel : Nat) {rtn : Ptr}
    {place : Ptr × Ptr}, (∀ n, nodes.get rtn = some n → dbit ≤ n.rtnBit) →
    insertClimb nodes dbit fuel rtn = .ok place →
    ∀ n, nodes.get place.1 = some n → dbit ≤ n.rtnBit := by
  intro fuel
  induction fuel with
  | zero =>
    intro rtn place _ hrun
    cases hrun
  | succ fuel ih =>
    intro rtn place hle hrun
    obtain ⟨x, -, hrun⟩ := exec_bind_eq_ok.mp hrun
    dsimp only at hrun
    split at hrun
    · obtain rfl := Except.ok.inj hrun
      exact hle
    obtain ⟨n, hn, hrun⟩ := exec_bind_eq_ok.mp hrun
    split at hrun
    · next hup =>
      refine ih (fun m hm => ?_) hrun
      obtain rfl := Option.some.inj ((Heap.deref_eq_ok.mp hn).symm.trans hm)
      exact hup
    · obtain rfl := Except.ok.inj hrun
      exact hle

/-- Preparing a key leaves the nodes alone. -/
theorem prepareKey_nodes (rtt : RtTable) (copyOk : Bool) (rth : Ptr) :
    Ensures (rtt.prepareKey copyOk rth) fun key => key.2.nodes = rtt.nodes := by
  unfold prepareKey
  refine .bindAny fun hd => ?_
  split
  · split
    · split
      · exact ensures_ok.mpr rfl
      · exact ensures_ok.mpr rfl
    · exact .bindAny fun _ => ensures_ok.mpr rfl
  · exact ensures_error
  · exact ensures_ok.mpr rfl

namespace Reads

variable {m : Nat} (h8 : m % 8 = 0)

include h8

theorem inside_prepareKey (rtt : RtTable) (hm : rtt.rttMaxaddrlen = m) (copyOk : Bool) (rth : Ptr) :
    Inside m (prepareKey rtt copyOk rth) := by
  have hbytes : rtt.keyBytes ≤ m / 8 := by
    rw [keyBytes, hm]
    omega
  refine .lift_bind fun hd _ => ?_
  split
  · dsimp only
    split
    · split
      · refine .bind ?_ fun _ _ => Traced.all_pure _
        exact fun i hi => lt_of_lt_of_le (List.mem_range.mp hi) hbytes
      · exact Traced.all_pure _
    · split
      · refine .bind (inside_memDiffer hbytes) fun _ _ => ?_
        exact .lift_bind fun _ _ => Traced.all_pure _
      · refine .bind (Traced.all_pure _) fun _ _ => ?_
        exact .lift_bind fun _ _ => Traced.all_pure _
  · exact Traced.all_monadLift _
  · exact Traced.all_pure _

/-- A node with a new child is shorter than the key of the child. -/
theorem inside_attachBelow {rtt : RtTable} {addr : Addr} {rth rtn rtnAdd : Ptr} {bitlen dbit : Nat}
    {n : RtNode} (hn : rtt.nodes.get rtn = some n) (hbit : n.rtnBit = dbit) (hlen : bitlen ≤ m) :
    Inside m (attachBelow rtt addr rth rtn rtnAdd bitlen dbit) := by
  refine .lift_bind fun _ hassert => .lift_bind fun nodes hnodes => .lift_bind fun n' hn' => ?_
  have hlt : dbit < bitlen := of_decide_eq_true (ensures_assertThat _ _ hassert)
  have hbit' : n'.rtnBit = n.rtnBit := by
    have hsame := update_bits hnodes (fun _ => rfl) rtn
    rw [Heap.deref_eq_ok.mp hn', hn] at hsame
    exact Option.some.inj hsame
  refine .bind (inside_bitTestAt h8 (by omega)) fun right _ => ?_
  split
  · exact .lift_bind fun _ _ => .lift_bind fun _ _ => Traced.all_pure _
  · exact .lift_bind fun _ _ => .lift_bind fun _ _ => Traced.all_pure _

theorem inside_linkNode {rtt : RtTable} {A : Malloc RtNode} {addr hisAddr : Addr}
    {rth rtn rtnPrev rtnAdd : Ptr} {bitlen dbit : Nat} (hdbit : dbit ≤ bitlen) (hlen : bitlen ≤ m)
    (habove : ∀ n, rtt.nodes.get rtn = some n → n.rtnBit = bitlen ∨ dbit ≤ n.rtnBit ∧ n.rtnBit ≤ m) :
    Inside m (linkNode rtt A addr hisAddr rth rtn rtnPrev rtnAdd bitlen dbit) := by
  refine .lift_bind fun n hn => ?_
  have hget := Heap.deref_eq_ok.mp hn
  split
  · next hsame => exact inside_attachBelow h8 hget hsame hlen
  next hdiff =>
  split
  · -- the new node goes above a longer one
    have hbits := habove n hget
    refine .bind (inside_bitTestAt h8 (by omega)) fun right _ => ?_
    exact .lift_bind fun _ _ => Traced.all_monadLift _
  · unfold insertGlue
    split
    · exact Traced.all_monadLift _
    · exact .bind (inside_bitTestAt h8 (by omega)) fun _ _ => Traced.all_monadLift _

theorem inside_insertNode {rtt : RtTable} {A : Malloc RtNode} {addr hisAddr : Addr}
    {rth rtn rtnPrev : Ptr} {bitlen dbit : Nat} (hdbit : dbit ≤ bitlen) (hlen : bitlen ≤ m)
    (habove : ∀ n, rtt.nodes.get rtn = some n → dbit ≤ n.rtnBit ∧ n.rtnBit ≤ m) :
    Inside m (insertNode rtt A addr hisAddr rth rtn rtnPrev bitlen dbit) := by
  unfold insertNode newNode
  split
  next rtnAdd rtt' hnew =>
  split
  · exact Traced.all_pure _
  refine inside_linkNode h8 hdbit hlen fun n hn => ?_
  split at hnew
  · obtain ⟨-, rfl⟩ := Prod.mk.inj hnew
    exact .inr (habove n hn)
  · obtain ⟨-, rfl⟩ := Prod.mk.inj hnew
    rw [setRtn, nodes_setHead, Heap.get_set] at hn
    split at hn
    · obtain rfl := Option.some.inj hn
      exact .inl rfl
    · exact .inr (habove n hn)

theorem inside_insertBelowRoot {rtt : RtTable} (hbits : BitsOk rtt.nodes m) (A : Malloc RtNode)
    (rth : Ptr) {bitlen : Nat} (hlen : bitlen ≤ m) :
    Inside m (insertBelowRoot rtt A rth bitlen) := by
  refine .lift_bind fun addr _ => .bind (inside_descend_glue h8 hbits hlen _ _) fun rtn _ =>
    .lift_bind fun n hn => .lift_bind fun hisAddr _ => ?_
  have hchk : min n.rtnBit bitlen ≤ m := (Nat.min_le_right _ _).trans hlen
  refine .bind (inside_dbitLoop h8 hchk _ _) fun d _ => ?_
  have hle : (if min n.rtnBit bitlen < d then min n.rtnBit bitlen else d) ≤ min n.rtnBit bitlen := by
    split
    · exact le_rfl
    · omega
  generalize (if min n.rtnBit bitlen < d then min n.rtnBit bitlen else d) = dbit at hle
  refine .lift_bind fun place hplace => .lift_bind fun n' _ => ?_
  split
  · exact Traced.all_monadLift _
  · refine inside_insertNode h8 (hle.trans (Nat.min_le_right _ _)) hlen fun x hx => ?_
    refine ⟨insertClimb_le _ (fun y hy => ?_) hplace x hx, hbits.short _ _ hx⟩
    obtain rfl := Option.some.inj ((Heap.deref_eq_ok.mp hn).symm.trans hy)
    exact hle.trans (Nat.min_le_left _ _)

omit h8 in
theorem debugStart_nodes (rtt : RtTable) (rth : Ptr) :
    Ensures (rtt.debugStart rth) fun rtt' => rtt'.nodes = rtt.nodes := by
  unfold debugStart debugClear
  dsimp only
  split
  · split
    · split
      · exact ensures_error
      · exact ensures_ok.mpr rfl
    · exact ensures_ok.mpr rfl
  · exact ensures_ok.mpr rfl

/-- `std_radix_insert` stays inside the key. -/
theorem inside_insert {rtt : RtTable} (hbits : BitsOk rtt.nodes m) (hm : rtt.rttMaxaddrlen = m)
    (A : Malloc RtNode) (copyOk : Bool) (rth : Ptr) {bitlen : Nat} (hlen : bitlen ≤ m) :
    Inside m (stdRadixInsert rtt A copyOk rth bitlen) := by
  refine .bind (inside_prepareKey h8 rtt hm copyOk rth) fun key hkey => ?_
  have hnodes : key.2.nodes = rtt.nodes :=
    prepareKey_nodes rtt copyOk rth key ((result_prepareKey ..).symm.trans hkey)
  split
  · exact Traced.all_pure _
  refine .lift_bind fun rtt' hstart => ?_
  have hcleared : rtt'.nodes = rtt.nodes := (debugStart_nodes key.2 rth rtt' hstart).trans hnodes
  split
  · exact Traced.all_pure _
  dsimp only
  split
  · exact Traced.all_pure _
  · exact inside_insertBelowRoot h8 (hcleared ▸ hbits) A rth hlen

end Reads

/-! ## All calls -/

/-- A call of full length whose bits lead to a node of full length, or that looks for a subtree and
finds a head after the prefix, reads the byte behind the key. The other calls do not. -/
def ByteCall.EndsInside (rtt : RtTable) : ByteCall → Prop
  | .getexact (some addr) bitlen => bitlen = rtt.rttMaxaddrlen → ¬ FullLed rtt addr
  | .getbest (some addr) bitlen | .getbestandprev (some addr) bitlen _
  | .getnextbest (some addr) bitlen =>
    bitlen = rtt.rttMaxaddrlen → ¬ FullLed rtt (rtt.queryAddr addr)
  | .getsubtree (some addr) bitlen => bitlen = rtt.rttMaxaddrlen → ¬ FullLed rtt addr ∧
      NothingAfter rtt (firstBits (bitAt (rtt.queryAddr addr)) bitlen)
  | .getexact none _ | .getbest none _ | .getbestandprev none _ _ | .getnextbest none _
  | .getsubtree none _ | .getnext .. | .insert .. => True

section
variable {rtt : RtTable} {t : Tree RtVal}

theorem Shape.reads_inside (hs : Shape rtt t) (hdebug : rtt.rttDebug = false)
    (hbits : BitsOk rtt.nodes rtt.rttMaxaddrlen) (h8 : rtt.rttMaxaddrlen % 8 = 0)
    (hmax : rtt.rttMaxaddrlen ≤ 65528) (call : ByteCall) (hlen : call.bitlen ≤ rtt.rttMaxaddrlen) :
    (∀ i ∈ call.reads rtt, i < rtt.rttMaxaddrlen / 8) ↔ call.EndsInside rtt := by
  cases call with
  | getexact addr bitlen =>
    cases addr with
    | none => exact iff_of_true (Traced.all_monadLift _) trivial
    | some addr => exact Reads.inside_getexact hs hbits h8 hlen hdebug addr
  | getbest addr bitlen =>
    cases addr with
    | none => exact iff_of_true (Traced.all_pure _) trivial
    | some addr => exact Reads.inside_getbest hs hbits h8 hlen hdebug addr
  | getbestandprev addr bitlen lessbest =>
    cases addr with
    | none => exact iff_of_true (Traced.all_pure _) trivial
    | some addr => exact Reads.inside_getbestandprev hs hbits h8 hlen hdebug addr lessbest
  | getnextbest addr bitlen =>
    cases addr with
    | none => exact iff_of_true (Traced.all_pure _) trivial
    | some addr => exact Reads.inside_getnextbest hs hbits h8 hlen hdebug addr
  | getnext dest bitlen =>
    exact iff_of_true (Reads.inside_getnext hbits h8 hlen hdebug dest) trivial
  | getsubtree addr bitlen =>
    cases addr with
    | none => exact iff_of_true (Reads.inside_getsubtree_none hbits h8 hlen hdebug) trivial
    | some addr => exact Reads.inside_getsubtree hs hbits h8 hlen hdebug hmax addr
  | insert A copyOk rth addr bitlen =>
    -- the nodes are those of the table before the address is written
    let rtt' := rtt.setHead rth { rtt.heads rth with rthAddr := some addr }
    have hinside := @Reads.inside_insert _ h8 rtt' hbits rfl A copyOk rth bitlen hlen
    exact iff_of_true hinside trivial

end

/-- In every table whose keys are whole bytes, a call stays inside the keys if and only if it is not
one of full length that comes to a node of full length, or to a head after the prefix whose subtree
it looks for. -/
theorem byte_reads_iff {marker : Ptr → Bool} {rtt₀ : RtTable} (hnew : NewTable rtt₀)
    (h8 : rtt₀.rttMaxaddrlen % 8 = 0) (hmax : rtt₀.rttMaxaddrlen < 2 ^ 16) {s : TableState}
    (hreached : OpxCommonUtils.Reached TableState.step (fun s l => l.Allowed marker s)
      ⟨rtt₀, .outside⟩ s)
    (call : ByteCall) (hlen : call.bitlen ≤ rtt₀.rttMaxaddrlen) :
    (∀ i ∈ call.reads s.rtt, i < rtt₀.rttMaxaddrlen / 8) ↔ call.EndsInside s.rtt := by
  obtain ⟨⟨t, hwalk⟩, haccounts⟩ := hnew.reached_accounts hreached
  have hsame := haccounts.maxaddrlen
  rw [← hsame] at h8 hmax hlen ⊢
  have hbits := hwalk.shape.bitsOk haccounts.short
  exact hwalk.shape.reads_inside hwalk.plain hbits h8 (by omega) call hlen

/-- The host prefix 0.0.0.0/32. -/
def hostSteps : List TableLabel := [.insert .above true 1 (fun _ => 0) 32]

/-- The query of the host prefix reads the fifth byte of a key of four. -/
theorem byte_reads_behind : ¬ ∀ s, OpxCommonUtils.Reached TableState.step
      (fun s l => TableLabel.Allowed (fun _ => false) s l)
      ⟨stdRadixCreate 32 true fun _ => default, .outside⟩ s →
    ∀ call : ByteCall, call.bitlen ≤ 32 → ∀ i ∈ call.reads s.rtt, i < 4 := by
  intro hclaim
  have hrun : (runSteps TableState.step hostSteps sampleNew).map (fun s =>
      (ByteCall.getbest (some fun _ => 0) 32).reads s.rtt) = some [4, 4, 0, 1, 2, 3] := by
    decide +kernel
  obtain ⟨s, hs, hend⟩ := Option.map_eq_some_iff.mp hrun
  have hreached := OpxCommonUtils.Reached.runSteps_of_allMeet
    (fun s l => TableLabel.Allowed (fun _ => false) s l) _ .init (by decide +kernel) hs
  have hlt := hclaim s hreached (.getbest (some fun _ => 0) 32) le_rfl 4 (by rw [hend]; decide)
  omega

/-- For the network prefix 0.0.0.0/16 in that table the indices are below 4. -/
theorem byte_reads_iff_sample : ∃ s, runSteps TableState.step hostSteps sampleNew = some s ∧
    ∀ i ∈ (ByteCall.getbest (some fun _ => 0) 16).reads s.rtt, i < 32 / 8 := by
  have hrun : (runSteps TableState.step hostSteps sampleNew).map (fun s => s.rtt.rttMaxaddrlen) =
      some 32 := by decide +kernel
  obtain ⟨s, hs, hmax⟩ := Option.map_eq_some_iff.mp hrun
  have hreached := OpxCommonUtils.Reached.runSteps_of_allMeet
    (fun s l => TableLabel.Allowed (fun _ => false) s l) _ .init (by decide +kernel) hs
  refine ⟨s, hs, (byte_reads_iff (newTable_create 32 true fun _ => default) (by decide) (by decide)
    hreached (.getbest (some fun _ => 0) 16) (by decide)).mpr fun hfull => ?_⟩
  rw [hmax] at hfull
  cases hfull

end OpxCommonUtils.Radix
