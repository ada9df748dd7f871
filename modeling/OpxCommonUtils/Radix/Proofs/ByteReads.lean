import OpxCommonUtils.Radix.ByteReads
import OpxCommonUtils.Radix.Proofs.Accounts
import OpxCommonUtils.Radix.Proofs.NoFaults

/-!
# The lookups and the ends of the keys

The bits that are tested on the way through the tree are those of nodes that have children, or bits
before the first difference, so they lie inside the key. `rdx_compare_address` is the exception: for
a prefix of full length it reads the byte behind the key. So a lookup of full length leaves the key
where its bits lead to a node of full length (`FullLed`).
-/

namespace OpxCommonUtils.Radix

open Tree Trie LinkTree RtTable

/-! ## The bits of the nodes -/

/-- The bits of the nodes of a heap for keys of at most `m` bits: they grow on the way down, and a
node without a head is shorter than a key. -/
structure BitsOk (nodes : Heap RtNode) (m : Nat) : Prop where
  null : nodes.get NULL = none
  tbit : ∀ p n, nodes.get p = some n → n.rtnTbit = rnbit n.rtnBit
  short : ∀ p n, nodes.get p = some n → n.rtnBit ≤ m
  glue : ∀ p n, nodes.get p = some n → n.rtnRth = NULL → n.rtnBit < m
  parent : ∀ p n, nodes.get p = some n → n.rtnParent ≠ NULL →
    ∃ x, nodes.get n.rtnParent = some x ∧ x.rtnBit < n.rtnBit
  left : ∀ p n, nodes.get p = some n → n.rtnLeft ≠ NULL →
    ∃ x, nodes.get n.rtnLeft = some x ∧ n.rtnBit < x.rtnBit
  right : ∀ p n, nodes.get p = some n → n.rtnRight ≠ NULL →
    ∃ x, nodes.get n.rtnRight = some x ∧ n.rtnBit < x.rtnBit

section
variable {rtt : RtTable} {t : Tree RtVal}

/-- A node is longer than the one above. -/
theorem Shape.bit_lt (hs : Shape rtt t) {f : Frame RtVal} {c : List (Frame RtVal)} {p : Ptr}
    {v : RtVal} {l r : Tree RtVal} (heq : plug (f :: c) (.node p v l r) = t) :
    f.val.bit < v.bit := by
  obtain ⟨k, hctx, hwf⟩ := (heq.symm ▸ hs.wf).split
  obtain ⟨key, hk, hlen, -⟩ := wf_node.mp hwf
  have habove := hctx.len_lt f List.mem_cons_self
  have hle := hk.length_le
  simp only [len_view] at habove hlen
  omega

theorem Shape.bitsOk (hs : Shape rtt t)
    (hshort : ∀ p n, rtt.nodes.get p = some n → n.rtnBit ≤ rtt.rttMaxaddrlen) :
    BitsOk rtt.nodes rtt.rttMaxaddrlen := by
  -- the child at the root of a subtree that is there
  have hchild : ∀ {f : Frame RtVal} {c : List (Frame RtVal)} {s : Tree RtVal},
      plug (f :: c) s = t → s.root NULL ≠ NULL →
      ∃ x, rtt.nodes.get (s.root NULL) = some x ∧ f.val.bit < x.rtnBit := by
    intro f c s heq hne
    cases s with
    | nil => exact absurd rfl hne
    | node q u l r => exact ⟨_, hs.get_node heq, hs.bit_lt heq⟩
  refine ⟨?_, ?_, hshort, ?_, ?_, ?_, ?_⟩
  · cases hnull : rtt.nodes.get NULL with
    | none => rfl
    | some n => exact absurd rfl (hs.ptr_ne_null (hs.owned _ _ hnull))
  · intro p n hn
    obtain ⟨c, v, l, r, heq, rfl⟩ := hs.locate hn
    exact (hs.linked _ (Shape.mem_of_plug heq)).tbit
  · intro p n hn h0
    obtain ⟨c, v, l, r, heq, rfl⟩ := hs.locate hn
    have hnone := (key_view_eq_none (hs.linked _ (Shape.mem_of_plug heq))).mpr h0
    obtain ⟨k, -, hwf⟩ := (heq.symm ▸ hs.wf).split
    have hl := (hwf.children_of_glue hnone).1
    have hleft : plug (⟨.left, p, v, r⟩ :: c) l = t := heq
    obtain ⟨x, hx, hlt⟩ := hchild hleft ((hs.root_of_subtree hleft).not.mpr hl)
    exact lt_of_lt_of_le hlt (hshort _ _ hx)
  · intro p n hn hpar
    obtain ⟨c, v, l, r, heq, rfl⟩ := hs.locate hn
    cases c with
    | nil => exact absurd rfl hpar
    | cons f c =>
      obtain ⟨m, hm, -, hbit, -⟩ := hs.deref_frame heq
      exact ⟨m, Heap.deref_eq_ok.mp hm, hbit.trans_lt (hs.bit_lt heq)⟩
  · intro p n hn hne
    obtain ⟨c, v, l, r, heq, rfl⟩ := hs.locate hn
    have hleft : plug (⟨.left, p, v, r⟩ :: c) l = t := heq
    exact hchild hleft hne
  · intro p n hn hne
    obtain ⟨c, v, l, r, heq, rfl⟩ := hs.locate hn
    have hright : plug (⟨.right, p, v, l⟩ :: c) r = t := heq
    exact hchild hright hne

end

/-! ## Reads inside a key -/

section
variable {m : Nat}

/-- A bit of a key is in one of its bytes. -/
theorem rnbyte_lt (h8 : m % 8 = 0) {bit : Nat} : rnbyte bit < m / 8 ↔ bit < m := by
  rw [rnbyte_eq]
  omega

namespace Reads

/-- The bytes read are those of a key of `m` bits. -/
abbrev Inside (m : Nat) {α : Type} (x : Reads α) : Prop := x.All (· < m / 8)

theorem inside_byteAt {ap : Addr} {i : Nat} : Inside m (byteAt ap i) ↔ i < m / 8 := by
  simp [Traced.All, byteAt]

theorem inside_memDiffer {a b : Addr} {n : Nat} (h : n ≤ m / 8) : Inside m (memDiffer a b n) :=
  fun _ hi => lt_of_lt_of_le (List.mem_range.mp hi) h

variable (h8 : m % 8 = 0)

include h8

theorem inside_bitTestAt {ap : Addr} {bit : Nat} {tbit : UInt8} (h : bit < m) :
    Inside m (bitTestAt ap bit tbit) :=
  .bind (inside_byteAt.mpr ((rnbyte_lt h8).mpr h)) fun _ _ => Traced.all_pure _

/-- The comparison up to a bit reads the byte of the bit itself, whether it matters or not. -/
theorem inside_rdxCompareAddress {a b : Addr} {bit : Nat} {tbit : UInt8} :
    Inside m (rdxCompareAddress a b (rnbyte bit) tbit) ↔ bit < m := by
  constructor
  · intro h
    exact (rnbyte_lt h8).mp (inside_byteAt.mp (Traced.all_bind.mp h).1)
  · intro h
    have hbyte := (rnbyte_lt h8).mpr h
    refine .bind (inside_byteAt.mpr hbyte) fun _ _ => .bind (inside_byteAt.mpr hbyte) fun _ _ => ?_
    split
    · exact Traced.all_pure _
    split
    · exact inside_memDiffer hbyte.le
    · exact Traced.all_pure _

/-- The loop for the first difference stays before the bound it is given. -/
theorem inside_dbitLoop {addr his : Addr} {bits : Nat} (hbits : bits ≤ m) : ∀ (fuel dbit : Nat),
    Inside m (dbitLoop addr his bits fuel dbit) := by
  intro fuel
  induction fuel with
  | zero => exact fun _ => Traced.all_monadLift _
  | succ fuel ih =>
    intro dbit
    rw [dbitLoop]
    split
    · next hlt =>
      have hbyte : dbit >>> 3 < m / 8 := (rnbyte_lt h8).mpr (by omega)
      refine .bind (inside_byteAt.mpr hbyte) fun _ _ =>
        .bind (inside_byteAt.mpr hbyte) fun _ _ => ?_
      split
      · exact Traced.all_pure _
      · exact ih _
    · exact Traced.all_pure _

/-- The descent tests bits of nodes from which it goes on. -/
theorem inside_descend {nodes : Heap RtNode} {go : RtNode → Bool} {addr : Addr}
    (hgo : ∀ p n, nodes.get p = some n → go n = true → n.rtnBit < m) : ∀ (fuel : Nat) (rtn : Ptr),
    Inside m (descend nodes go addr fuel rtn) := by
  intro fuel
  induction fuel with
  | zero => exact fun _ => Traced.all_monadLift _
  | succ fuel ih =>
    intro rtn
    refine .lift_bind fun n hn => ?_
    split
    · next hpass =>
      have hbit := hgo rtn n (Heap.deref_eq_ok.mp hn) hpass
      refine .bind (inside_bitTestAt h8 hbit) fun right _ => ?_
      split
      · split
        · exact Traced.all_pure _
        · exact ih _
      · split
        · exact Traced.all_pure _
        · exact ih _
    · exact Traced.all_pure _

/-- The descents of the lookups. -/
theorem inside_descend_shorter {nodes : Heap RtNode} {addr : Addr} {bitlen : Nat}
    (hlen : bitlen ≤ m) (fuel : Nat) (rtn : Ptr) :
    Inside m (descend nodes (shorter bitlen) addr fuel rtn) :=
  inside_descend h8 (fun _ _ _ hgo => lt_of_lt_of_le (of_decide_eq_true hgo) hlen) fuel rtn

/-- The descents of `std_radix_insert` and `std_radix_getnext` go on from nodes without a head. -/
theorem inside_descend_glue {nodes : Heap RtNode} (hbits : BitsOk nodes m) {addr : Addr}
    {bitlen : Nat} (hlen : bitlen ≤ m) (fuel : Nat) (rtn : Ptr) :
    Inside m (descend nodes (shorterOrGlue bitlen) addr fuel rtn) := by
  refine inside_descend h8 (fun p n hn hgo => ?_) fuel rtn
  rcases Bool.or_eq_true _ _ ▸ hgo with hlt | hglue
  · exact lt_of_lt_of_le (of_decide_eq_true hlt) hlen
  · exact hbits.glue p n hn (of_decide_eq_true hglue)

/-- The way back stays inside the key if its first node is shorter than a key or than the query. -/
theorem inside_backtrack {rtt : RtTable} (hbits : BitsOk rtt.nodes m) {addr : Addr} {bitlen : Nat} :
    ∀ (fuel : Nat) (rtn : Ptr),
      (∀ n, rtt.nodes.get rtn = some n → n.rtnBit ≤ bitlen → n.rtnBit < m) →
      Inside m (backtrack rtt addr bitlen fuel rtn) := by
  intro fuel
  induction fuel with
  | zero => exact fun _ _ => Traced.all_monadLift _
  | succ fuel ih =>
    intro rtn hfirst
    rw [backtrack]
    split
    · exact Traced.all_pure _
    refine .lift_bind fun n hn => ?_
    have hget := Heap.deref_eq_ok.mp hn
    have hup : Inside m (backtrack rtt addr bitlen fuel n.rtnParent) := by
      refine ih _ fun x hx _ => ?_
      by_cases h0 : n.rtnParent = NULL
      · rw [h0, hbits.null] at hx
        cases hx
      · obtain ⟨y, hy, hlt⟩ := hbits.parent rtn n hget h0
        obtain rfl := Option.some.inj (hy.symm.trans hx)
        exact lt_of_lt_of_le hlt (hbits.short rtn n hget)
    split
    · exact hup
    split
    · exact hup
    · next hlong _ =>
      refine .lift_bind fun his _ => .bind ?_ fun differ _ => ?_
      · exact (inside_rdxCompareAddress h8).mpr (hfirst n hget (by omega))
      · split
        · exact hup
        · exact Traced.all_pure _

end Reads

end

/-! ## Nodes of full length -/

/-- The bits of `ap` lead from the node `p` to the node `q`. -/
inductive Leads (nodes : Heap RtNode) (ap : Addr) : Ptr → Ptr → Prop
  | here {p : Ptr} : Leads nodes ap p p
  | right {p q : Ptr} {n : RtNode} : nodes.get p = some n → bitAt ap n.rtnBit = true →
      Leads nodes ap n.rtnRight q → Leads nodes ap p q
  | left {p q : Ptr} {n : RtNode} : nodes.get p = some n → bitAt ap n.rtnBit = false →
      Leads nodes ap n.rtnLeft q → Leads nodes ap p q

/-- The bits of `ap` lead to a node that stores a prefix of full length. -/
def FullLed (rtt : RtTable) (ap : Addr) : Prop :=
  ∃ q n, Leads rtt.nodes ap rtt.rttRoot q ∧ rtt.nodes.get q = some n ∧
    n.rtnBit = rtt.rttMaxaddrlen

section
variable {nodes : Heap RtNode} {m : Nat} {ap : Addr}

theorem leads_of_descend (hbits : BitsOk nodes m) {go : RtNode → Bool} : ∀ (fuel : Nat) (p r : Ptr),
    RtTable.descend nodes go ap fuel p = .ok r → Leads nodes ap p r := by
  intro fuel
  induction fuel with
  | zero =>
    intro p r hrun
    cases hrun
  | succ fuel ih =>
    intro p r hrun
    obtain ⟨n, hn, hrun⟩ := exec_bind_eq_ok.mp hrun
    have hget := Heap.deref_eq_ok.mp hn
    rw [hbits.tbit p n hget, bitTest_rnbit] at hrun
    have hstop : Except.ok p = (Except.ok r : Exec Ptr) → Leads nodes ap p r := by
      intro heq
      obtain rfl := Except.ok.inj heq
      exact .here
    split at hrun
    · split at hrun
      · next hbit =>
        split at hrun
        · exact hstop hrun
        · exact .right hget hbit (ih _ _ hrun)
      · next hbit =>
        split at hrun
        · exact hstop hrun
        · exact .left hget (Bool.eq_false_of_not_eq_true hbit) (ih _ _ hrun)
    · exact hstop hrun

/-- Where the bits lead to a node of full length, the descent of a query of full length ends. -/
theorem descend_of_leads (hbits : BitsOk nodes m) {q : Ptr} {x : RtNode}
    (hq : nodes.get q = some x) (hfull : x.rtnBit = m) : ∀ (fuel : Nat) (p r : Ptr),
    Leads nodes ap p q → RtTable.descend nodes (shorter m) ap fuel p = .ok r → r = q := by
  intro fuel
  induction fuel with
  | zero =>
    intro p r _ hrun
    cases hrun
  | succ fuel ih =>
    intro p r hleads hrun
    obtain ⟨n, hn, hrun⟩ := exec_bind_eq_ok.mp hrun
    have hget := Heap.deref_eq_ok.mp hn
    rw [hbits.tbit p n hget, bitTest_rnbit] at hrun
    -- a branch that leads to `q` is there
    have hthere : ∀ {child : Ptr}, Leads nodes ap child q → child ≠ NULL := by
      rintro child hchild rfl
      cases hchild with
      | here =>
        rw [hbits.null] at hq
        cases hq
      | right h _ _ =>
        rw [hbits.null] at h
        cases h
      | left h _ _ =>
        rw [hbits.null] at h
        cases h
    cases hleads with
    | here =>
      obtain rfl := Option.some.inj (hq.symm.trans hget)
      rw [if_neg (by simp [shorter, hfull])] at hrun
      exact (Except.ok.inj hrun).symm
    | @right _ _ n' hget' hbit hnext =>
      obtain rfl := Option.some.inj (hget.symm.trans hget')
      have hne := hthere hnext
      obtain ⟨y, hy, hlt⟩ := hbits.right p n hget hne
      have hgo : shorter m n = true := decide_eq_true (lt_of_lt_of_le hlt (hbits.short _ _ hy))
      rw [if_pos hgo, if_pos hbit, if_neg hne] at hrun
      exact ih _ _ hnext hrun
    | @left _ _ n' hget' hbit hnext =>
      obtain rfl := Option.some.inj (hget.symm.trans hget')
      have hne := hthere hnext
      obtain ⟨y, hy, hlt⟩ := hbits.left p n hget hne
      have hgo : shorter m n = true := decide_eq_true (lt_of_lt_of_le hlt (hbits.short _ _ hy))
      rw [if_pos hgo, if_neg (by rw [hbit]; exact Bool.false_ne_true), if_neg hne] at hrun
      exact ih _ _ hnext hrun

/-- The node where the descent of a query of full length ends has full length or none has to which
the bits lead. -/
theorem fullLed_iff {rtt : RtTable} (hbits : BitsOk rtt.nodes rtt.rttMaxaddrlen) {fuel : Nat}
    {r : Ptr} {n : RtNode}
    (hdesc : RtTable.descend rtt.nodes (shorter rtt.rttMaxaddrlen) ap fuel rtt.rttRoot = .ok r)
    (hget : rtt.nodes.get r = some n) : FullLed rtt ap ↔ n.rtnBit = rtt.rttMaxaddrlen := by
  constructor
  · rintro ⟨q, x, hleads, hq, hfull⟩
    obtain rfl := descend_of_leads hbits hq hfull _ _ _ hleads hdesc
    rwa [Option.some.inj (hget.symm.trans hq)]
  · intro hfull
    exact ⟨r, n, leads_of_descend hbits _ _ _ hdesc, hget, hfull⟩

end

/-! ## The lookups -/

section
variable {rtt : RtTable} {t : Tree RtVal} {bitlen : Nat}

/-- Where the descent of a lookup ends. -/
theorem Shape.landing (hs : Shape rtt t) (hroot : rtt.rttRoot ≠ NULL) (ap : Addr) (bitlen : Nat) :
    ∃ r n, RtTable.descend rtt.nodes (shorter bitlen) ap (rtt.nodes.bound + 1) rtt.rttRoot = .ok r ∧
      rtt.nodes.get r = some n := by
  obtain ⟨f, c, near, hl, hdesc⟩ := hs.descend_spec (shorter bitlen)
    (fun v => decide (v.bit < bitlen)) (hs.root_eq_null.not.mp hroot) (fun _ _ _ _ => rfl) ap
  exact ⟨f.ptr, _, hdesc, hs.get_frame hl.plug_eq⟩

/-- The stored key of the head of a node can be read. -/
theorem Shape.rdxAddr_node (hs : Shape rtt t) {p : Ptr} {n : RtNode}
    (hget : rtt.nodes.get p = some n) (h0 : n.rtnRth ≠ NULL) : ∃ a, rtt.rdxAddr n.rtnRth = .ok a := by
  obtain ⟨c, v, l, r, heq, rfl⟩ := hs.locate hget
  obtain ⟨a, ha⟩ := (hs.linked _ (Shape.mem_of_plug heq)).addr h0
  exact ⟨a, rdxAddr_ok h0 ha⟩

theorem fullLed_root_ne {ap : Addr} (hbits : BitsOk rtt.nodes rtt.rttMaxaddrlen)
    (h : FullLed rtt ap) : rtt.rttRoot ≠ NULL := by
  obtain ⟨q, n, hleads, hq, -⟩ := h
  intro h0
  rw [h0] at hleads
  cases hleads with
  | here =>
    rw [hbits.null] at hq
    cases hq
  | right h _ _ =>
    rw [hbits.null] at h
    cases h
  | left h _ _ =>
    rw [hbits.null] at h
    cases h

namespace Reads

variable (hs : Shape rtt t) (hbits : BitsOk rtt.nodes rtt.rttMaxaddrlen)
  (h8 : rtt.rttMaxaddrlen % 8 = 0) (hlen : bitlen ≤ rtt.rttMaxaddrlen)

include hs hbits h8 hlen

/-- The search for the best match leaves the key if and only if it comes to a node of full
length. -/
theorem inside_bestNode (hroot : rtt.rttRoot ≠ NULL) (ap : Addr) :
    Inside rtt.rttMaxaddrlen (bestNode rtt ap bitlen) ↔
      (bitlen = rtt.rttMaxaddrlen → ¬ FullLed rtt ap) := by
  obtain ⟨r, n, hdesc, hget⟩ := hs.landing hroot ap bitlen
  constructor
  · rintro hinside rfl hfull
    have hbit := (fullLed_iff hbits hdesc hget).mp hfull
    have hback := (Traced.all_bind.mp hinside).2 r ((result_descend ..).trans hdesc)
    -- the node of full length has a head, with which the address is compared
    have h0 : n.rtnRth ≠ NULL := fun h0 => absurd (hbits.glue r n hget h0) (by omega)
    have hr : r ≠ NULL := by
      rintro rfl
      rw [hbits.null] at hget
      cases hget
    obtain ⟨a, ha⟩ := hs.rdxAddr_node hget h0
    rw [backtrack, if_neg hr] at hback
    have hnode := (Traced.all_bind.mp hback).2 n (Heap.deref_ok hget)
    rw [if_neg (by omega), if_neg h0] at hnode
    have hcompare := (Traced.all_bind.mp ((Traced.all_bind.mp hnode).2 a ha)).1
    have hlt := (inside_rdxCompareAddress h8).mp hcompare
    omega
  · intro hfull
    refine .bind (inside_descend_shorter h8 hlen _ _) fun r' hr' => ?_
    obtain rfl := Except.ok.inj (((result_descend ..).symm.trans hr').symm.trans hdesc)
    refine inside_backtrack h8 hbits _ _ fun n' hn' hle => ?_
    obtain rfl := Option.some.inj (hget.symm.trans hn')
    rcases Nat.lt_or_ge bitlen rtt.rttMaxaddrlen with hlt | hge
    · omega
    · obtain rfl : bitlen = rtt.rttMaxaddrlen := le_antisymm hlen hge
      have hne := (fullLed_iff hbits hdesc hget).not.mp (hfull rfl)
      have hshort := hbits.short _ n hget
      omega

/-- The same, with what a routine does around the search. -/
theorem inside_best {α : Type} (ap : Addr) (none : α) (f : Ptr → Reads α)
    (hf : ∀ r, Inside rtt.rttMaxaddrlen (f r)) :
    Inside rtt.rttMaxaddrlen
        (if rtt.rttRoot = NULL then pure none else bestNode rtt ap bitlen >>= f) ↔
      (bitlen = rtt.rttMaxaddrlen → ¬ FullLed rtt ap) := by
  split
  · next hroot =>
    exact iff_of_true (Traced.all_pure _) fun _ hfull => fullLed_root_ne hbits hfull hroot
  · next hroot =>
    rw [← inside_bestNode hs hbits h8 hlen hroot ap]
    exact ⟨fun h => (Traced.all_bind.mp h).1, fun h => h.bind fun r _ => hf r⟩

omit hs hlen in
/-- The way on from a match is above a node, so it stays inside the key. -/
theorem inside_backtrack_parent (ap : Addr) {r : Ptr} {n : RtNode} (hget : rtt.nodes.get r = some n) :
    Inside rtt.rttMaxaddrlen (backtrack rtt ap bitlen (rtt.nodes.bound + 1) n.rtnParent) := by
  refine inside_backtrack h8 hbits _ _ fun x hx _ => ?_
  by_cases h0 : n.rtnParent = NULL
  · rw [h0, hbits.null] at hx
    cases hx
  · obtain ⟨y, hy, hlt⟩ := hbits.parent r n hget h0
    obtain rfl := Option.some.inj (hy.symm.trans hx)
    exact lt_of_lt_of_le hlt (hbits.short r n hget)

variable (hdebug : rtt.rttDebug = false)

include hdebug

theorem inside_getbest (addr : Addr) :
    Inside rtt.rttMaxaddrlen (stdRadixGetbest rtt (some addr) bitlen) ↔
      (bitlen = rtt.rttMaxaddrlen → ¬ FullLed rtt (rtt.queryAddr addr)) := by
  rw [← inside_best hs hbits h8 hlen (rtt.queryAddr addr) NULL fun rtn =>
    liftM (liveHead rtt rtn)]
  · unfold stdRadixGetbest
    simp only [hdebug, Bool.false_and, Bool.false_eq_true, if_false]
  · exact fun _ => Traced.all_monadLift _

theorem inside_getbestandprev (addr : Addr) (lessbest : Ptr) :
    Inside rtt.rttMaxaddrlen (stdRadixGetbestandprev rtt (some addr) bitlen lessbest) ↔
      (bitlen = rtt.rttMaxaddrlen → ¬ FullLed rtt (rtt.queryAddr addr)) := by
  unfold stdRadixGetbestandprev
  simp only [hdebug, Bool.false_and, Bool.false_eq_true, if_false]
  refine inside_best hs hbits h8 hlen (rtt.queryAddr addr) _ _ fun rtn => ?_
  split
  · exact Traced.all_pure _
  refine .lift_bind fun n hn => ?_
  split
  · exact Traced.all_pure _
  · refine .bind (inside_backtrack_parent hbits h8 _ (Heap.deref_eq_ok.mp hn)) fun _ _ => ?_
    exact .lift_bind fun _ _ => Traced.all_pure _

theorem inside_getnextbest (addr : Addr) :
    Inside rtt.rttMaxaddrlen (stdRadixGetnextbest rtt (some addr) bitlen) ↔
      (bitlen = rtt.rttMaxaddrlen → ¬ FullLed rtt (rtt.queryAddr addr)) := by
  unfold stdRadixGetnextbest
  simp only [hdebug, Bool.false_and, Bool.false_eq_true, if_false]
  refine inside_best hs hbits h8 hlen (rtt.queryAddr addr) _ _ fun rtn => ?_
  split
  · exact Traced.all_pure _
  refine .lift_bind fun n hn => ?_
  split
  · exact Traced.all_pure _
  · exact .bind (inside_backtrack_parent hbits h8 _ (Heap.deref_eq_ok.mp hn)) fun _ _ =>
      Traced.all_monadLift _

/-- `std_radix_getexact` compares where the descent ends, if the lengths are the same. -/
theorem inside_getexact (addr : Addr) :
    Inside rtt.rttMaxaddrlen (stdRadixGetexact rtt (some addr) bitlen) ↔
      (bitlen = rtt.rttMaxaddrlen → ¬ FullLed rtt addr) := by
  unfold stdRadixGetexact
  simp only [hdebug, Bool.false_and, Bool.false_eq_true, if_false]
  split
  · next hroot =>
    exact iff_of_true (Traced.all_pure _) fun _ hfull => fullLed_root_ne hbits hfull hroot
  next hroot =>
  obtain ⟨r, n, hdesc, hget⟩ := hs.landing hroot addr bitlen
  constructor
  · rintro hinside rfl hfull
    have hbit := (fullLed_iff hbits hdesc hget).mp hfull
    have h0 : n.rtnRth ≠ NULL := fun h0 => absurd (hbits.glue r n hget h0) (by omega)
    obtain ⟨a, ha⟩ := hs.rdxAddr_node hget h0
    have hnode := (Traced.all_bind.mp ((Traced.all_bind.mp hinside).2 r
      ((result_descend ..).trans hdesc))).2 n (Heap.deref_ok hget)
    rw [if_neg (by simp [hbit, h0])] at hnode
    have hcompare := (Traced.all_bind.mp ((Traced.all_bind.mp hnode).2 a ha)).1
    have hlt := (inside_rdxCompareAddress h8).mp hcompare
    omega
  · intro hfull
    refine .bind (inside_descend_shorter h8 hlen _ _) fun r' hr' => ?_
    obtain rfl := Except.ok.inj (((result_descend ..).symm.trans hr').symm.trans hdesc)
    refine .lift_bind fun n' hn' => ?_
    obtain rfl := Option.some.inj (hget.symm.trans (Heap.deref_eq_ok.mp hn'))
    split
    · exact Traced.all_pure _
    next hsame =>
    have hbit : n.rtnBit = bitlen := by
      by_contra hne
      exact hsame (by simp [hne])
    refine .lift_bind fun his _ => .bind ((inside_rdxCompareAddress h8).mpr ?_) fun _ _ => ?_
    · refine lt_of_le_of_ne (hbits.short _ n hget) fun hmax => ?_
      obtain rfl : bitlen = rtt.rttMaxaddrlen := hbit.symm.trans hmax
      exact (fullLed_iff hbits hdesc hget).not.mp (hfull rfl) hmax
    · split
      · exact Traced.all_pure _
      split
      · exact Traced.all_pure _
      · exact Traced.all_pure _

omit hs in
/-- `std_radix_getnext` stays inside the key. -/
theorem inside_getnext (dest : Option Addr) :
    Inside rtt.rttMaxaddrlen (stdRadixGetnext rtt dest bitlen) := by
  unfold stdRadixGetnext
  simp only [hdebug, Bool.false_and, Bool.false_eq_true, if_false]
  split
  · exact Traced.all_pure _
  cases dest with
  | none => exact .bind (Traced.all_pure _) fun _ _ => Traced.all_monadLift _
  | some dest =>
    refine .bind ?_ fun _ _ => Traced.all_monadLift _
    refine .bind (inside_descend_glue h8 hbits hlen _ _) fun rtn _ => .lift_bind fun n hn =>
      .lift_bind fun ap2 _ => ?_
    have hle : min n.rtnBit bitlen ≤ rtt.rttMaxaddrlen := (Nat.min_le_right _ _).trans hlen
    refine .bind (inside_dbitLoop h8 hle _ _) fun dbit _ => ?_
    split
    · split
      · exact Traced.all_monadLift _
      · exact Traced.all_pure _
    · refine .bind (inside_bitTestAt h8 (by omega)) fun _ _ => ?_
      split
      · exact Traced.all_monadLift _
      · exact Traced.all_monadLift _

end Reads

end

end OpxCommonUtils.Radix
