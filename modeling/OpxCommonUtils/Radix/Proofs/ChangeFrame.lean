import OpxCommonUtils.Radix.Walk

/-!
# What the tree operations leave alone of the change list

`std_radix_insert` and `std_radix_remove` work on nodes, links and keys. Of the data of the change
list they touch what belongs to the head they are called with, and nothing else. The heads they
hand to `rtt_rmfree` are that of the node that goes, or that of a marked node.
-/

namespace OpxCommonUtils.Radix

/-- The change list, the version counter, and the version and flags of every head are the same;
the heads `freed` were handed to `rtt_rmfree`. -/
structure SameChanges (rtt rtt' : RtTable) (freed : List Ptr) : Prop where
  clhead : rtt'.rttClhead = rtt.rttClhead
  version : rtt'.rttVersion = rtt.rttVersion
  heads : ∀ x, (rtt'.heads x).rthVersion = (rtt.heads x).rthVersion ∧
    (rtt'.heads x).rdclFlags = (rtt.heads x).rdclFlags
  rmfreed : rtt'.rmfreed = rtt.rmfreed ++ freed

/-- The head `x` is that of a node that is marked for deletion. -/
def MarkedHead (rtt : RtTable) (x : Ptr) : Prop :=
  x ≠ NULL ∧ ∃ p n, rtt.nodes.get p = some n ∧ n.rtnRth = x ∧ n.marked = true

namespace SameChanges

/-- Nodes, links and counters have no part in it. -/
theorem of_eq {rtt rtt' : RtTable} (hlist : rtt'.rttClhead = rtt.rttClhead)
    (hversion : rtt'.rttVersion = rtt.rttVersion) (hheads : rtt'.heads = rtt.heads)
    (hfreed : rtt'.rmfreed = rtt.rmfreed) : SameChanges rtt rtt' [] where
  clhead := hlist
  version := hversion
  heads x := by rw [hheads]; exact ⟨rfl, rfl⟩
  rmfreed := by rw [hfreed, List.append_nil]

theorem refl (rtt : RtTable) : SameChanges rtt rtt [] := of_eq rfl rfl rfl rfl

theorem trans {a b c : RtTable} {l l' : List Ptr} (hab : SameChanges a b l)
    (hbc : SameChanges b c l') : SameChanges a c (l ++ l') where
  clhead := hbc.clhead.trans hab.clhead
  version := hbc.version.trans hab.version
  heads x := ⟨(hbc.heads x).1.trans (hab.heads x).1, (hbc.heads x).2.trans (hab.heads x).2⟩
  rmfreed := by rw [hbc.rmfreed, hab.rmfreed, List.append_assoc]

/-- What follows changes nodes, links and counters only. -/
theorem then_eq {a b c : RtTable} {l : List Ptr} (h : SameChanges a b l)
    (hlist : c.rttClhead = b.rttClhead) (hversion : c.rttVersion = b.rttVersion)
    (hheads : c.heads = b.heads) (hfreed : c.rmfreed = b.rmfreed) : SameChanges a c l where
  clhead := hlist.trans h.clhead
  version := hversion.trans h.version
  heads x := by rw [hheads]; exact h.heads x
  rmfreed := hfreed.trans h.rmfreed

/-- A head is overwritten, but its version and flags stay. -/
theorem setHead (rtt : RtTable) {rth : Ptr} {hd : RtHead}
    (hv : hd.rthVersion = (rtt.heads rth).rthVersion)
    (hf : hd.rdclFlags = (rtt.heads rth).rdclFlags) :
    SameChanges rtt (rtt.setHead rth hd) [] := by
  refine ⟨rfl, rfl, fun x => ?_, (List.append_nil _).symm⟩
  rw [RtTable.heads_setHead]
  by_cases hx : x = rth
  · rw [if_pos hx, hx]
    exact ⟨hv, hf⟩
  · rw [if_neg hx]
    exact ⟨rfl, rfl⟩

end SameChanges

namespace RtTable

variable (rtt : RtTable)

theorem setRtn_same (rth rtn : Ptr) : SameChanges rtt (rtt.setRtn rth rtn) [] :=
  SameChanges.setHead rtt rfl rfl

/-- What a release hands to `rtt_rmfree`. -/
def released (rth : Ptr) : List Ptr := if rth ≠ NULL ∧ rtt.rttRmfree = true then [rth] else []

theorem mem_released {rth x : Ptr} (hx : x ∈ rtt.released rth) : x ≠ NULL ∧ rth = x := by
  unfold released at hx
  split at hx
  · next h =>
    obtain rfl := List.mem_singleton.mp hx
    exact ⟨h.1, rfl⟩
  · cases hx

theorem releaseHead_same (rth : Ptr) :
    SameChanges rtt (rtt.releaseHead rth) (rtt.released rth) := by
  have hset : SameChanges rtt (rtt.setHead rth { rtt.heads rth with rdxRthAddr := none }) [] :=
    SameChanges.setHead rtt rfl rfl
  unfold releaseHead released
  by_cases h0 : rth = NULL
  · rw [if_pos h0, if_neg fun h => h.1 h0]
    exact .refl rtt
  · rw [if_neg h0]
    dsimp only
    split
    · next hfree =>
      have hfree' : rtt.rttRmfree = true := hfree
      rw [if_pos ⟨h0, hfree'⟩]
      exact ⟨hset.clhead, hset.version, hset.heads, rfl⟩
    · next hfree =>
      have hfree' : ¬rtt.rttRmfree = true := hfree
      rw [if_neg fun h => hfree' h.2]
      exact hset

theorem newNode_same (A : Malloc RtNode) (n : RtNode) :
    SameChanges rtt (rtt.newNode A n).2 [] := by
  unfold newNode
  split
  · exact .refl rtt
  · exact .of_eq rfl rfl rfl rfl

/-! ## Insertion -/

theorem prepareKey_same (copyOk : Bool) (rth : Ptr) :
    Ensures (rtt.prepareKey copyOk rth) fun r => SameChanges rtt r.2 [] := by
  unfold prepareKey
  refine .bind (P := fun hd => hd = rtt.heads rth) ?_ ?_
  · unfold readHead
    split <;> simp
  · rintro _ rfl
    split
    · split
      · split
        · exact ensures_ok.mpr (SameChanges.setHead rtt rfl rfl)
        · exact ensures_ok.mpr (.refl rtt)
      · exact .bindAny fun _ => ensures_ok.mpr (.refl rtt)
    · exact ensures_error
    · exact ensures_ok.mpr (SameChanges.setHead rtt rfl rfl)

theorem insertRoot_same (A : Malloc RtNode) (rth : Ptr) (bitlen : Nat) :
    SameChanges rtt (rtt.insertRoot A rth bitlen).2 [] := by
  unfold insertRoot
  split
  · exact .refl rtt
  · exact (rtt.setRtn_same rth _).trans (.of_eq rfl rfl rfl rfl)

/-- The head that makes room for another one is that of a marked node. -/
theorem fillNode_same (rth rtn : Ptr) :
    Ensures (rtt.fillNode rth rtn) fun r =>
      ∃ freed, SameChanges rtt r.2 freed ∧ ∀ x ∈ freed, MarkedHead rtt x := by
  unfold fillNode
  refine .bind (P := fun n => rtt.nodes.get rtn = some n) (fun _ h => Heap.deref_eq_ok.mp h) ?_
  intro n hn
  split
  · exact ensures_ok.mpr ⟨[], .refl rtt, by simp⟩
  · rename_i hold
    refine .bindAny fun nodes => ensures_ok.mpr ⟨rtt.released n.rtnRth, ?_, fun x hx => ?_⟩
    · have hall := (rtt.releaseHead_same n.rtnRth).trans
        (setRtn_same (rtt.releaseHead n.rtnRth) rth rtn)
      rw [List.append_nil] at hall
      exact hall.then_eq rfl rfl rfl rfl
    · obtain ⟨h0, hx⟩ := rtt.mem_released hx
      refine ⟨h0, rtn, n, hn, hx, ?_⟩
      simp only [Bool.and_eq_true, Bool.not_eq_true', bne_iff_ne, not_and] at hold
      cases hm : n.marked with
      | true => rfl
      | false => exact absurd (hx.trans_ne h0) (hold hm)

theorem attachBelow_same (addr : Addr) (rth rtn rtnAdd : Ptr) (bitlen dbit : Nat) :
    Ensures (rtt.attachBelow addr rth rtn rtnAdd bitlen dbit) fun r => SameChanges rtt r.2 [] := by
  unfold attachBelow
  refine .bindAny fun _ => .bindAny fun _ => .bindAny fun _ => ?_
  dsimp only
  split
  all_goals
    exact .bindAny fun _ => .bindAny fun _ => ensures_ok.mpr (.of_eq rfl rfl rfl rfl)

theorem linkAbove_same (rth rtn rtnPrev rtnNew : Ptr) :
    Ensures (rtt.linkAbove rth rtn rtnPrev rtnNew) fun r => SameChanges rtt r.2 [] := by
  unfold linkAbove
  refine .bindAny fun _ => .bindAny fun _ => .bindAny fun _ => ?_
  split
  · exact ensures_ok.mpr (.of_eq rfl rfl rfl rfl)
  · exact .bindAny fun _ => ensures_ok.mpr (.of_eq rfl rfl rfl rfl)

theorem insertGlue_same (A : Malloc RtNode) (addr : Addr) (rth rtn rtnPrev rtnAdd : Ptr)
    (dbit : Nat) :
    Ensures (rtt.insertGlue A addr rth rtn rtnPrev rtnAdd dbit)
      fun r => SameChanges rtt r.2 [] := by
  unfold insertGlue
  dsimp only
  generalize hr : rtt.newNode A _ = r
  have hnew : SameChanges rtt r.2 [] := hr ▸ rtt.newNode_same A _
  obtain ⟨rtnNew, rtt'⟩ := r
  dsimp only at hnew ⊢
  split
  · exact ensures_ok.mpr (hnew.trans (.of_eq rfl rfl rfl rfl))
  · refine .bindAny fun nodes => (linkAbove_same _ rth rtn rtnPrev rtnNew).mono fun r hr => ?_
    exact SameChanges.trans (b := { rtt' with nodes := nodes })
      (hnew.then_eq rfl rfl rfl rfl) hr

theorem linkNode_same (A : Malloc RtNode) (addr hisAddr : Addr) (rth rtn rtnPrev rtnAdd : Ptr)
    (bitlen dbit : Nat) :
    Ensures (rtt.linkNode A addr hisAddr rth rtn rtnPrev rtnAdd bitlen dbit)
      fun r => SameChanges rtt r.2 [] := by
  unfold linkNode
  refine .bindAny fun n => ?_
  split
  · exact rtt.attachBelow_same addr rth rtn rtnAdd bitlen dbit
  split
  · refine .bindAny fun nodes => (linkAbove_same _ rth rtn rtnPrev rtnAdd).mono fun r hr => ?_
    have hnodes : SameChanges rtt { rtt with nodes := nodes } [] := .of_eq rfl rfl rfl rfl
    exact hnodes.trans hr
  · exact rtt.insertGlue_same A addr rth rtn rtnPrev rtnAdd dbit

theorem insertNode_same (A : Malloc RtNode) (addr hisAddr : Addr) (rth rtn rtnPrev : Ptr)
    (bitlen dbit : Nat) :
    Ensures (rtt.insertNode A addr hisAddr rth rtn rtnPrev bitlen dbit)
      fun r => SameChanges rtt r.2 [] := by
  have hnew := rtt.newNode_same A { RtNode.new bitlen with rtnRth := rth }
  unfold insertNode
  generalize rtt.newNode A { RtNode.new bitlen with rtnRth := rth } = r at hnew ⊢
  obtain ⟨rtnAdd, rtt'⟩ := r
  dsimp only at hnew ⊢
  split
  · exact ensures_ok.mpr hnew
  · refine (linkNode_same _ A addr hisAddr rth rtn rtnPrev rtnAdd bitlen dbit).mono fun r hr => ?_
    exact (hnew.trans (rtt'.setRtn_same rth rtnAdd)).trans hr

theorem insertKey_same (A : Malloc RtNode) (rth : Ptr) (bitlen : Nat) :
    Ensures (rtt.insertKey A rth bitlen) fun r =>
      ∃ freed, SameChanges rtt r.2 freed ∧ ∀ x ∈ freed, MarkedHead rtt x := by
  have hcount : SameChanges rtt { rtt with rttNinserts := rtt.rttNinserts + 1 } [] :=
    .of_eq rfl rfl rfl rfl
  unfold insertKey
  dsimp only
  split
  · exact ensures_ok.mpr ⟨[], hcount.trans (insertRoot_same _ A rth bitlen), by simp⟩
  unfold insertBelowRoot
  refine .bindAny fun addr => .bindAny fun _ => .bindAny fun _ => .bindAny fun hisAddr =>
    .bindAny fun _ => .bindAny fun (rtn, rtnPrev) => .bindAny fun _ => ?_
  -- the bit to part at is capped first, whatever it is
  split
  all_goals
    split
    · refine (fillNode_same _ rth rtn).mono fun r hr => ?_
      obtain ⟨freed, hsame, hmarked⟩ := hr
      exact ⟨freed, hcount.trans hsame, hmarked⟩
    · exact (insertNode_same _ A addr hisAddr rth rtn rtnPrev bitlen _).mono
        fun r hr => ⟨[], hcount.trans hr, by simp⟩

/-- The debug block leaves alone what belongs to other heads. A head that is on no list stays off
it, and its flags stay or become zero. -/
theorem debugStart_other (rth : Ptr) :
    Ensures (rtt.debugStart rth) fun rtt' =>
      rtt'.rttClhead = rtt.rttClhead ∧ rtt'.rttVersion = rtt.rttVersion ∧
      (∀ x, x ≠ rth → rtt'.heads x = rtt.heads x) ∧
      ((rtt'.heads rth).rdclFlags = (rtt.heads rth).rdclFlags ∨
        (rtt'.heads rth).rdclFlags = 0) := by
  unfold debugStart debugClear
  dsimp only
  split
  · split
    · split
      · exact ensures_error
      · exact ensures_ok.mpr ⟨rfl, rfl, fun x hx => by simp [setHead, hx], .inr (by simp [setHead])⟩
    · exact ensures_ok.mpr ⟨rfl, rfl, fun x hx => by simp [setHead, hx], .inl (by simp [setHead])⟩
  · exact ensures_ok.mpr ⟨rfl, rfl, fun _ _ => rfl, .inl rfl⟩

/-! ## Removal -/

/-- Exchanging a child leaves every node its head. -/
theorem replaceChild_head (nodes : Heap RtNode) (first : Side) (rnPrev rn rnNext : Ptr) :
    Ensures (replaceChild nodes first rnPrev rn rnNext) fun nodes' =>
      ∀ q m, nodes'.get q = some m → ∃ n, nodes.get q = some n ∧ n.rtnRth = m.rtnRth := by
  have hupdate : ∀ f : RtNode → RtNode, (∀ n, (f n).rtnRth = n.rtnRth) →
      Ensures (nodes.update rnPrev f) fun nodes' =>
        ∀ q m, nodes'.get q = some m → ∃ n, nodes.get q = some n ∧ n.rtnRth = m.rtnRth := by
    intro f hf nodes' hnodes q m hm
    obtain ⟨n, hn, rfl⟩ := Heap.update_eq_ok.mp hnodes
    rw [Heap.get_set] at hm
    split at hm
    · next hq =>
      obtain rfl := Option.some.inj hm
      exact ⟨n, hq ▸ hn, (hf n).symm⟩
    · exact ⟨m, hm, rfl⟩
  unfold replaceChild
  refine .bindAny fun n => ?_
  cases first
  all_goals
    dsimp only
    split
    · exact hupdate _ fun _ => rfl
    · exact .bindAny fun _ => hupdate _ fun _ => rfl

theorem promoteChild_same (rn : Ptr) :
    Ensures (rtt.promoteChild rn) fun r =>
      ∃ freed, SameChanges rtt r.2.2 freed ∧ ∀ x ∈ freed, HeadOf rtt rn x := by
  have hrelease : ∀ (rtt' : RtTable) (rth : Ptr), SameChanges rtt rtt' [] →
      SameChanges rtt ((rtt'.releaseHead rth).freeNode rn) (rtt'.released rth) := by
    intro rtt' rth h
    exact (h.trans (rtt'.releaseHead_same rth)).then_eq rfl rfl rfl rfl
  unfold promoteChild
  refine .bind (P := fun n => rtt.nodes.get rn = some n) (fun _ h => Heap.deref_eq_ok.mp h) ?_
  intro n hn
  have hhead : ∀ (rtt' : RtTable), ∀ x ∈ rtt'.released n.rtnRth, HeadOf rtt rn x := fun rtt' x hx =>
    ⟨(rtt'.mem_released hx).1, n, hn, (rtt'.mem_released hx).2⟩
  refine .bindAny fun _ => .bindAny fun _ => .bindAny fun nodes => ?_
  split
  · exact ensures_ok.mpr ⟨_, hrelease _ n.rtnRth (.of_eq rfl rfl rfl rfl), hhead _⟩
  · exact .bindAny fun _ =>
      ensures_ok.mpr ⟨_, hrelease _ n.rtnRth (.of_eq rfl rfl rfl rfl), hhead _⟩

theorem removeLeaf_same (rn : Ptr) (dir : Dir) :
    Ensures (rtt.removeLeaf rn dir) fun r =>
      ∃ freed, SameChanges rtt r.2.2 freed ∧ ∀ x ∈ freed, HeadOf rtt rn x := by
  unfold removeLeaf
  refine .bind (P := fun n => rtt.nodes.get rn = some n) (fun _ h => Heap.deref_eq_ok.mp h) ?_
  intro n hn
  have hhead : ∀ x ∈ rtt.released n.rtnRth, HeadOf rtt rn x := fun x hx =>
    ⟨(rtt.mem_released hx).1, n, hn, (rtt.mem_released hx).2⟩
  have hfree : SameChanges rtt ((rtt.releaseHead n.rtnRth).freeNode rn) (rtt.released n.rtnRth) :=
    (rtt.releaseHead_same n.rtnRth).then_eq rfl rfl rfl rfl
  have hdone : ∀ rtt', SameChanges ((rtt.releaseHead n.rtnRth).freeNode rn) rtt' [] →
      ∃ freed, SameChanges rtt rtt' freed ∧ ∀ x ∈ freed, HeadOf rtt rn x := by
    intro rtt' h
    refine ⟨_, ?_, hhead⟩
    have hall := hfree.trans h
    rwa [List.append_nil] at hall
  dsimp only
  split
  · exact ensures_ok.mpr (hdone _ (.of_eq rfl rfl rfl rfl))
  refine .bind (P := fun prev => ((rtt.releaseHead n.rtnRth).freeNode rn).nodes.get n.rtnParent =
    some prev) (fun _ h => Heap.deref_eq_ok.mp h) fun prev hprev => ?_
  refine .bind (replaceChild_head _ _ _ _ _) fun nodes hnodes => ?_
  split
  · exact ensures_ok.mpr (hdone _ (.of_eq rfl rfl rfl rfl))
  · rename_i hglue
    refine (promoteChild_same _ n.rtnParent).mono fun r hr => ?_
    obtain ⟨freed, hsame, hof⟩ := hr
    -- the parent has no head to hand over
    have hnone : freed = [] := by
      refine List.eq_nil_iff_forall_not_mem.mpr fun x hx => ?_
      obtain ⟨h0, m, hm, rfl⟩ := hof x hx
      obtain ⟨m', hm', hrth⟩ := hnodes _ _ hm
      rw [hprev] at hm'
      obtain rfl := Option.some.inj hm'
      exact hglue (bne_iff_ne.mpr (hrth ▸ h0))
    subst hnone
    have hnodes : SameChanges ((rtt.releaseHead n.rtnRth).freeNode rn)
        { (rtt.releaseHead n.rtnRth).freeNode rn with nodes := nodes } [] :=
      .of_eq rfl rfl rfl rfl
    exact hdone _ (hnodes.trans hsame)

/-- The head handed to `rtt_rmfree` is that of the node. -/
theorem removeNode_same (rn : Ptr) (dir : Dir) :
    Ensures (rtt.removeNode rn dir) fun r =>
      ∃ freed, SameChanges rtt r.2.2 freed ∧ ∀ x ∈ freed, HeadOf rtt rn x := by
  let rtt₁ : RtTable := { rtt with rttRoutes := ulongPred rtt.rttRoutes }
  have hcount : SameChanges rtt rtt₁ [] := .of_eq rfl rfl rfl rfl
  have hcounted : ∀ rtt', (∃ freed, SameChanges rtt₁ rtt' freed ∧ ∀ x ∈ freed, HeadOf rtt₁ rn x) →
      ∃ freed, SameChanges rtt rtt' freed ∧ ∀ x ∈ freed, HeadOf rtt rn x := by
    rintro rtt' ⟨freed, hsame, hof⟩
    exact ⟨freed, hcount.trans hsame, hof⟩
  unfold removeNode
  refine .bindAny fun _ => ?_
  refine .bind (P := fun n => rtt.nodes.get rn = some n) (fun _ h => Heap.deref_eq_ok.mp h) ?_
  intro n hn
  refine .bindAny fun _ => ?_
  dsimp only
  split
  · refine .bindAny fun nodes =>
      ensures_ok.mpr (hcounted _ ⟨rtt₁.released n.rtnRth, ?_, fun x hx => ?_⟩)
    · exact (rtt₁.releaseHead_same n.rtnRth).then_eq rfl rfl rfl rfl
    · exact ⟨(rtt₁.mem_released hx).1, n, hn, (rtt₁.mem_released hx).2⟩
  split
  · exact (removeLeaf_same _ rn dir).mono fun r hr => hcounted _ hr
  · exact (promoteChild_same _ rn).mono fun r hr => hcounted _ hr

end RtTable

end OpxCommonUtils.Radix
