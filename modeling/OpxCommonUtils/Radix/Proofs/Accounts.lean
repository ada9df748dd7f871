import OpxCommonUtils.Radix.Proofs.WalkReturn

/-!
# The accounts of a table

What the calls and the rounds of version walks allocate and free is what their counters say, and no
node has a longer prefix than the table allows (`Accounts`).
-/

namespace OpxCommonUtils.Radix

open Tree Trie LinkTree RtTable

section
variable {rtt₀ rtt rtt' : RtTable} {t t' : Tree RtVal}

theorem Shape.mem_ptrs_iff (hs : Shape rtt t) (p : Ptr) :
    p ∈ t.ptrs ↔ (rtt.nodes.get p).isSome = true := by
  constructor
  · intro hp
    obtain ⟨-, n, hn⟩ := hs.holds.live hp
    rw [hn]
    rfl
  · intro hp
    obtain ⟨n, hn⟩ := Option.isSome_iff_exists.mp hp
    exact hs.owned p n hn

/-- The number of nodes is that of the live cells. -/
theorem Shape.size_eq (hs : Shape rtt t) (hs' : Shape rtt' t')
    (hlive : ∀ p, (rtt'.nodes.get p).isSome = (rtt.nodes.get p).isSome) : t'.size = t.size := by
  rw [← length_ptrs, ← length_ptrs]
  refine ((List.perm_ext_iff_of_nodup hs'.holds.nodup hs.holds.nodup).mpr fun p => ?_).length_eq
  rw [hs'.mem_ptrs_iff, hs.mem_ptrs_iff, hlive]

/-- Since the table `rtt₀` had no nodes, the counters tell the number of nodes, and no node is longer
than the table allows. -/
structure Accounts (rtt₀ rtt : RtTable) : Prop where
  alloc : ∀ t, Shape rtt t →
    rtt.rttNmalloc + rtt₀.rttNfree = rtt₀.rttNmalloc + rtt.rttNfree + t.size
  short : ∀ p n, rtt.nodes.get p = some n → n.rtnBit ≤ rtt.rttMaxaddrlen
  maxaddrlen : rtt.rttMaxaddrlen = rtt₀.rttMaxaddrlen

/-- Nodes are neither allocated nor freed, and keep their bits. -/
structure SameNodes (rtt rtt' : RtTable) : Prop where
  bits : ∀ p, (rtt'.nodes.get p).map RtNode.rtnBit = (rtt.nodes.get p).map RtNode.rtnBit
  nmalloc : rtt'.rttNmalloc = rtt.rttNmalloc
  nfree : rtt'.rttNfree = rtt.rttNfree
  maxaddrlen : rtt'.rttMaxaddrlen = rtt.rttMaxaddrlen

namespace Accounts

theorem of_same (h : Accounts rtt₀ rtt) (hs : Shape rtt t) (hsame : SameNodes rtt rtt') :
    Accounts rtt₀ rtt' where
  alloc t' hs' := by
    have hsize : t'.size = t.size := hs.size_eq hs' fun p => by
      rw [← Option.isSome_map (f := RtNode.rtnBit), hsame.bits, Option.isSome_map]
    rw [hsame.nmalloc, hsame.nfree, hsize]
    exact h.alloc t hs
  short p n hn := by
    have hbits := hsame.bits p
    rw [hn, Option.map_some] at hbits
    obtain ⟨m, hm, hbit⟩ := Option.map_eq_some_iff.mp hbits.symm
    rw [← hbit, hsame.maxaddrlen]
    exact h.short p m hm
  maxaddrlen := hsame.maxaddrlen.trans h.maxaddrlen

/-- The tree changes, with new nodes that are not too long. -/
theorem of_shape (h : Accounts rtt₀ rtt) (hs : Shape rtt t) (hs' : Shape rtt' t')
    (hcount : rtt'.rttNmalloc + rtt.rttNfree + t.size =
      rtt.rttNmalloc + rtt'.rttNfree + t'.size)
    (hmax : rtt'.rttMaxaddrlen = rtt.rttMaxaddrlen)
    (hbits : ∀ x ∈ t'.pre, x.2.bit ≤ rtt.rttMaxaddrlen ∨ ∃ y ∈ t.pre, x.2.bit = y.2.bit) :
    Accounts rtt₀ rtt' where
  alloc t'' hs'' := by
    have hsize : t''.size = t'.size := hs'.size_eq hs'' fun _ => rfl
    have hbefore := h.alloc t hs
    rw [hsize]
    omega
  short p n hn := by
    obtain ⟨c, v, l, r, heq, rfl⟩ := hs'.locate hn
    rw [hmax]
    rcases hbits (p, v) (Shape.mem_of_plug heq) with hle | ⟨⟨q, u⟩, hy, hbit⟩
    · exact hle
    · obtain ⟨c', l', r', heq'⟩ := exists_plug_of_mem_pre hy
      have hle := h.short q _ (hs.get_node heq')
      exact hbit.trans_le hle
  maxaddrlen := hmax.trans h.maxaddrlen

/-- A removal counts the nodes it frees. -/
theorem removeNode (h : Accounts rtt₀ rtt) (hs : Shape rtt t) (hlocks : Unlocked t) (p : Ptr)
    (dir : RtTable.Dir) :
    Ensures (rtt.removeNode p dir) fun res =>
      (∃ t', Shape res.2.2 t') ∧ Accounts rtt₀ res.2.2 := by
  intro res hrun
  obtain ⟨_, -, hrest⟩ := exec_bind_eq_ok.mp hrun
  obtain ⟨n, hn, -⟩ := exec_bind_eq_ok.mp hrest
  obtain ⟨c, v, l, r, heq, -⟩ := hs.locate (Heap.deref_eq_ok.mp hn)
  obtain ⟨t', ps, ret, rtt', hpr, hres, hs', -, hfreed, -⟩ :=
    hs.removeNode_spec dir heq (hlocks _ (Shape.mem_of_plug heq)) fun f d hc _ _ _ =>
      hlocks _ (heq ▸ hc ▸ Shape.mem_pre_of_frame List.mem_cons_self)
  rw [hres] at hrun
  obtain rfl := Except.ok.inj hrun
  have hsize := hpr.size_eq
  rw [heq] at hsize
  refine ⟨⟨t', hs'⟩, h.of_shape hs hs' ?_ hfreed.config.1 fun x hx => .inr ?_⟩
  · dsimp only
    rw [hfreed.nmalloc, hfreed.nfree]
    omega
  · rcases hpr.mem_pre (heq.symm ▸ hs.holds.nodup) hx with rfl | ⟨hx, -⟩
    · exact ⟨(p, v), Shape.mem_of_plug heq, rfl⟩
    · exact ⟨x, heq ▸ hx, rfl⟩

/-- An insertion counts the nodes it adds. -/
theorem inserted (h : Accounts rtt₀ rtt) (hs : Shape rtt t) {A : Malloc RtNode} {rth : Ptr}
    {K : List Bool} {n : Nat} {res : Ptr × RtTable} (hn : n ≤ rtt.rttMaxaddrlen)
    (ho : InsertOutcome rtt t A rth K n (.ok res)) : Accounts rtt₀ res.2 := by
  have hcounted : ∀ {rtt' : RtTable} {dn dr : Nat} {t' : Tree RtVal},
      Counted rtt rtt' dn dr → Shape rtt' t' → t'.size = t.size + dn →
      (∀ x ∈ t'.pre, x.2.bit ≤ rtt.rttMaxaddrlen ∨ ∃ y ∈ t.pre, x.2.bit = y.2.bit) →
      Accounts rtt₀ rtt' := by
    intro rtt' dn dr t' hcount hs' hsize hbits
    have halloc := hcount.alloc
    exact h.of_shape hs hs' (by omega) hcount.config.1 hbits
  have hold : ∀ x ∈ t.pre, x.2.bit ≤ rtt.rttMaxaddrlen ∨ ∃ y ∈ t.pre, x.2.bit = y.2.bit :=
    fun x hx => .inr ⟨x, hx, rfl⟩
  cases ho with
  | present _ _ hs' _ hcount => exact hcounted hcount hs' rfl hold
  | noMemory _ hs' _ hcount => exact hcounted hcount hs' rfl hold
  | added hg hs' _ _ hcount =>
    have hsize := hg.size_le
    refine hcounted hcount hs' (by omega) fun x hx => ?_
    rcases hg.mem_pre hx with hx | ⟨-, ⟨hle, -⟩ | ⟨y, hy, hbit, -⟩⟩
    · exact hold x hx
    · exact .inl (hle.trans hn)
    · exact .inr ⟨y, hy, hbit⟩
  | @replaced _ c p v l r ht _ _ hs' hcount =>
    subst ht
    refine hcounted hcount hs' (by rw [size_plug, size_plug]; rfl) fun x hx => .inr ?_
    rcases mem_pre_of_setVal hs.holds.nodup hx with rfl | ⟨hx, -⟩
    · exact ⟨(p, v), Shape.mem_of_plug rfl, rfl⟩
    · exact ⟨x, hx, rfl⟩

end Accounts

/-- A change of a cell that keeps its bit. -/
theorem update_bits {h h' : Heap RtNode} {p : Ptr} {f : RtNode → RtNode}
    (hrun : h.update p f = .ok h') (hf : ∀ n, (f n).rtnBit = n.rtnBit) :
    ∀ q, (h'.get q).map RtNode.rtnBit = (h.get q).map RtNode.rtnBit := by
  obtain ⟨n, hn, rfl⟩ := Heap.update_eq_ok.mp hrun
  intro q
  rw [Heap.get_set]
  split
  · next hq => rw [hq, hn, Option.map_some, Option.map_some, hf]
  · rfl

namespace Accounts

/-- Appending to the change list leaves the nodes alone. -/
theorem append (h : Accounts rtt₀ rtt) (hs : Shape rtt t) (rth : Ptr) :
    Ensures (rtt.stdRadicalAppendtochangelist rth) fun res => Accounts rtt₀ res.2 := by
  unfold stdRadicalAppendtochangelist unlistHead
  refine .bindAny fun hd => .bindAny fun _ =>
    .bind (P := fun rtt' => ∃ l, rtt' = rtt.relink l) ?_ ?_
  · split
    · exact .bindAny fun _ => ensures_ok.mpr ⟨_, rfl⟩
    · exact ensures_ok.mpr ⟨_, rfl⟩
  · rintro _ ⟨l, rfl⟩
    refine ensures_ok.mpr (h.of_same hs ⟨fun _ => ?_, ?_, ?_, ?_⟩)
    all_goals
      dsimp only
      split <;> rfl

/-- The mark of a removal in a callback, or the removal of a node. -/
theorem remove {marker : Ptr → Bool} {s s' : TableState} (h : Accounts rtt₀ s.rtt)
    (hwalk : WalkOk s t) {rth : Ptr} (hacts : s.userActs = true)
    (hallow : TableLabel.Allowed marker s (.remove rth))
    (hrun : s.exec (.remove rth) = .ok s') : Accounts rtt₀ s'.rtt := by
  cases hwalk.remove_outcome hacts hallow s' hrun with
  | removed _ _ _ hlocks _ hres hs' _ =>
    obtain rfl := hs'
    have h₁ : Accounts rtt₀ (countRemove s.rtt) := h.of_same hwalk.shape ⟨fun _ => rfl, rfl, rfl, rfl⟩
    obtain ⟨⟨t', hs₂⟩, h₂⟩ := h₁.removeNode hwalk.shape.countRemove hlocks _ _ _ hres
    refine h₂.of_same hs₂ ⟨fun _ => ?_, ?_, ?_, ?_⟩
    all_goals
      unfold RtTable.unlinkChange
      split <;> rfl
  | marked heq _ _ _ _ _ hs' _ =>
    obtain rfl := hs'
    refine h.of_same hwalk.shape ⟨fun p => ?_, rfl, rfl, rfl⟩
    rw [Heap.get_set]
    split
    · next hp =>
      rw [hp, hwalk.shape.get_node heq]
      rfl
    · rfl

/-- A removal by a round of a walk. -/
theorem roundRemoves (h : Accounts rtt₀ rtt) (hs : Shape rtt t) (hlocks : Unlocked t) (p : Ptr)
    (dir : RtTable.Dir) (control : Ptr × RtTable.Dir × RtTable → Control) :
    Ensures (rtt.removeNode p dir >>= fun res => .ok (TableState.mk res.2.2 (control res)))
      fun s' => Accounts rtt₀ s'.rtt :=
  (h.removeNode hs hlocks p dir).bind fun _ hres => ensures_ok.mpr hres.2

theorem loopRound (h : Accounts rtt₀ rtt) (hs : Shape rtt t) (hlocks : Unlocked t)
    (w : VersionWalk) : Ensures (VersionWalk.loopRound rtt w) fun s' => Accounts rtt₀ s'.rtt := by
  unfold VersionWalk.loopRound
  split
  · exact ensures_ok.mpr h
  split
  · exact ensures_ok.mpr h
  split
  · refine .bindAny fun n => ?_
    split
    · exact ensures_ok.mpr h
    split
    · refine .bind (P := fun nodes => ∀ q, (nodes.get q).map RtNode.rtnBit =
        (rtt.nodes.get q).map RtNode.rtnBit) ?_ ?_
      · exact fun nodes hrun => update_bits hrun fun _ => rfl
      · exact fun nodes hbits => ensures_ok.mpr (h.of_same hs ⟨hbits, rfl, rfl, rfl⟩)
    · exact ensures_ok.mpr h
  · refine .bindAny fun n => ?_
    split
    · exact ensures_ok.mpr h
    · exact ensures_ok.mpr h
  · refine .bindAny fun n => ?_
    split
    · exact h.roundRemoves hs hlocks _ _ _
    · exact .bindAny fun _ => ensures_ok.mpr h

theorem climbRound (h : Accounts rtt₀ rtt) (hs : Shape rtt t) (hlocks : Unlocked t)
    (w : VersionWalk) (y : Ptr) :
    Ensures (VersionWalk.climbRound rtt w y) fun s' => Accounts rtt₀ s'.rtt := by
  unfold VersionWalk.climbRound
  refine .bindAny fun n => ?_
  split
  · exact h.roundRemoves hs hlocks _ _ _
  · exact ensures_ok.mpr h

/-- The calls and the rounds of walks count what they allocate and free, and make no node too long. -/
theorem step {marker : Ptr → Bool} {s s' : TableState} {l : TableLabel}
    (h : Accounts rtt₀ s.rtt) (hwalk : WalkOk s t) (hallow : l.Allowed marker s)
    (hstep : TableState.step l s = some s') : Accounts rtt₀ s'.rtt := by
  obtain ⟨henabled, hrun⟩ := exec_of_step hstep
  cases l with
  | insert A copyOk rth addr n =>
    obtain ⟨⟨rth', rtt'⟩, hres, hs'⟩ := exec_bind_eq_ok.mp hrun
    obtain rfl := Except.ok.inj hs'
    have hown := hwalk.insert_own hallow
    obtain ⟨h0, -, hn, -⟩ := hallow
    have hs₁ := (hwalk.setHead_addr rth addr).shape
    have h₁ : Accounts rtt₀ (writeAddr s.rtt rth addr) :=
      h.of_same hwalk.shape ⟨fun _ => rfl, rfl, rfl, rfl⟩
    rcases hs₁.insert_outcome A copyOk hwalk.plain h0 (rthAddr_writeAddr _ _ _) hn hown _ hres with
      heq | ho
    · obtain ⟨-, rfl⟩ := Prod.mk.inj heq
      exact h₁
    · exact h₁.inserted hs₁ hn ho
  | remove rth => exact h.remove hwalk henabled hallow hrun
  | appendtochangelist rth =>
    obtain ⟨⟨ver, rtt⟩, happend, hs'⟩ := exec_bind_eq_ok.mp hrun
    obtain rfl := Except.ok.inj hs'
    exact h.append hwalk.shape rth _ happend
  | versionwalk rth walkFn cnt minVer maxVer =>
    suffices hstart : Ensures (VersionWalk.start s.rtt rth walkFn cnt minVer maxVer)
        (fun s' => s'.rtt = s.rtt) from (hstart s' hrun) ▸ h
    unfold VersionWalk.start
    dsimp only
    split
    · exact ensures_ok.mpr rfl
    · split <;> exact ensures_ok.mpr rfl
  | callbackReturn ret =>
    obtain ⟨rtt, control⟩ := s
    cases control with
    | callback w =>
      obtain ⟨c, v, l, r, heq, -⟩ := hwalk.placed
      have hreturn := VersionWalk.callbackReturn_eq hwalk.shape heq ret
      obtain rfl := Except.ok.inj (hreturn.symm.trans hrun)
      refine h.of_same hwalk.shape ⟨fun p => ?_, rfl, rfl, rfl⟩
      rw [Heap.get_set]
      split
      · next hp =>
        rw [hp, hwalk.shape.get_node heq]
        rfl
      · rfl
    | outside | loop _ | climb _ _ => cases henabled
  | round =>
    obtain ⟨rtt, control⟩ := s
    cases control with
    | loop w => exact h.loopRound hwalk.shape hwalk.placed.1 w s' hrun
    | climb w y => exact h.climbRound hwalk.shape hwalk.placed.1 w y s' hrun
    | outside | callback _ => cases henabled

end Accounts

/-- What holds in every state that the calls lead to from a new table. -/
theorem NewTable.reached_accounts {marker : Ptr → Bool} (hnew : NewTable rtt₀) {s : TableState}
    (hreached : OpxCommonUtils.Reached TableState.step (fun s l => l.Allowed marker s)
      ⟨rtt₀, .outside⟩ s) : (∃ t, WalkOk s t) ∧ Accounts rtt₀ s.rtt := by
  refine hreached.invariant (P := fun s => (∃ t, WalkOk s t) ∧ Accounts rtt₀ s.rtt)
    ⟨⟨_, hnew.walkOk⟩, fun t hs => ?_, fun p n hn => ?_, rfl⟩ ?_
  · rw [hs.root_eq_null.mp hnew.root]
    rfl
  · rw [hnew.nodes p] at hn
    cases hn
  · rintro s₁ s₂ label ⟨⟨t, hwalk⟩, haccounts⟩ hallow hstep
    exact ⟨hwalk.step hallow hstep, haccounts.step hwalk hallow hstep⟩

end

end OpxCommonUtils.Radix
