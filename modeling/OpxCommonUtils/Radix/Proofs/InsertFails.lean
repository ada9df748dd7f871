import OpxCommonUtils.Radix.Proofs.Accounts

/-!
# Insertions that run out of memory

An insertion needs one new node, or two when the key parts from the ones below it. If the first is
not to be had, nothing has been done. If the second is not, the first one is given back, but the
head of the caller still points to it (`insert_fails_iff`).
-/

namespace OpxCommonUtils.Radix

open Tree Trie LinkTree RtTable

section
variable {rtt : RtTable} {t : Tree RtVal}

/-! ## Where an insertion gives up -/

/-- An insertion that gives up: the first node is not to be had, or it was there and is given
back. -/
inductive GivesUp (rtt : RtTable) (A : Malloc RtNode) (rth : Ptr) (n : Nat) : RtTable → Prop
  | first : A.next rtt.nodes = none → GivesUp rtt A rth n rtt
  | second {p : Ptr} : A.next rtt.nodes = some p →
      GivesUp rtt A rth n ((Shape.withNode rtt rth p n).freeNode p)

/-- The node of a key hands out a head. -/
theorem fillNode_some (rtt : RtTable) {rth : Ptr} (p : Ptr) (h0 : rth ≠ NULL) :
    Ensures (fillNode rtt rth p) fun res => res.1 ≠ NULL := by
  refine .bindAny fun n => ?_
  split
  · next hthere =>
    exact ensures_ok.mpr (bne_iff_ne.mp (Bool.and_eq_true _ _ ▸ hthere).2)
  · exact .bindAny fun _ => ensures_ok.mpr h0

theorem linkAbove_some (rtt : RtTable) {rth : Ptr} (rtn rtnPrev rtnNew : Ptr) (h0 : rth ≠ NULL) :
    Ensures (linkAbove rtt rth rtn rtnPrev rtnNew) fun res => res.1 ≠ NULL := by
  refine .bindAny fun n => .bindAny fun _ => .bindAny fun _ => ?_
  split
  · exact ensures_ok.mpr h0
  · exact .bindAny fun _ => ensures_ok.mpr h0

theorem attachBelow_some (rtt : RtTable) (addr : Addr) {rth : Ptr} (rtn rtnAdd : Ptr)
    (bitlen dbit : Nat) (h0 : rth ≠ NULL) :
    Ensures (attachBelow rtt addr rth rtn rtnAdd bitlen dbit) fun res => res.1 ≠ NULL := by
  refine .bindAny fun _ => .bindAny fun _ => .bindAny fun n => ?_
  dsimp only
  split
  · exact .bindAny fun _ => .bindAny fun _ => ensures_ok.mpr h0
  · exact .bindAny fun _ => .bindAny fun _ => ensures_ok.mpr h0

/-- Once the first node is there, only the glue node can be missing. -/
theorem linkNode_null (rtt : RtTable) (A : Malloc RtNode) (addr hisAddr : Addr) {rth : Ptr}
    (rtn rtnPrev rtnAdd : Ptr) (bitlen dbit : Nat) (h0 : rth ≠ NULL) :
    Ensures (linkNode rtt A addr hisAddr rth rtn rtnPrev rtnAdd bitlen dbit) fun res =>
      res.1 = NULL → res.2 = rtt.freeNode rtnAdd := by
  have hsome : ∀ {x : Exec (Ptr × RtTable)}, Ensures x (fun res => res.1 ≠ NULL) →
      Ensures x fun res => res.1 = NULL → res.2 = rtt.freeNode rtnAdd :=
    fun hx => hx.mono fun _ hres hnull => absurd hnull hres
  refine .bindAny fun m => ?_
  split
  · exact hsome (attachBelow_some _ _ _ _ _ _ h0)
  split
  · exact .bindAny fun _ => hsome (linkAbove_some _ _ _ _ h0)
  · unfold insertGlue newNode
    dsimp only
    cases hA : A.next rtt.nodes with
    | none => exact ensures_ok.mpr fun _ => rfl
    | some p =>
      dsimp only
      split
      · next hp => exact absurd hp (A.fresh _ _ hA).2
      · exact .bindAny fun _ => hsome (linkAbove_some _ _ _ _ h0)

theorem insertNode_null (rtt : RtTable) (A : Malloc RtNode) (addr hisAddr : Addr) {rth : Ptr}
    (rtn rtnPrev : Ptr) (n dbit : Nat) (h0 : rth ≠ NULL) :
    Ensures (insertNode rtt A addr hisAddr rth rtn rtnPrev n dbit) fun res =>
      res.1 = NULL → GivesUp rtt A rth n res.2 := by
  unfold insertNode newNode
  cases hA : A.next rtt.nodes with
  | none => exact ensures_ok.mpr fun _ => .first hA
  | some p =>
    dsimp only
    rw [if_neg (A.fresh _ _ hA).2]
    refine (linkNode_null _ A addr hisAddr rtn rtnPrev p n dbit h0).mono fun res hres hnull => ?_
    rw [hres hnull]
    exact .second hA

/-- An insertion that returns `NULL` gives up, and its head is not in the table. -/
theorem Shape.insertKey_null (hs : Shape rtt t) (A : Malloc RtNode) {rth : Ptr} {addr : Addr}
    {n : Nat} (h0 : rth ≠ NULL) (haddr : (rtt.heads rth).rdxRthAddr = some addr)
    (hown : ∀ x ∈ t.pre, x.2.rth = rth → (firstBits (bitAt addr) n, x) ∈ entries (view rtt.heads) t ∧
      rdxTestBit x.2.flags RDX_RN_DELE_BIT = false) :
    Ensures (insertKey rtt A rth n) fun res => res.1 = NULL →
      (∀ x ∈ t.pre, x.2.rth ≠ rth) ∧
        GivesUp { rtt with rttNinserts := rtt.rttNinserts + 1 } A rth n res.2 := by
  let rtt₁ : RtTable := { rtt with rttNinserts := rtt.rttNinserts + 1 }
  have hs₁ : Shape rtt₁ t := hs.of_heads (fun _ => rfl) rfl hs.keeps_self
  change Ensures (if rtt₁.rttRoot = NULL then .ok (rtt₁.insertRoot A rth n)
    else insertBelowRoot rtt₁ A rth n) _
  by_cases hnil : t = .nil
  · rw [if_pos (hs₁.root_eq_null.mpr hnil)]
    refine ensures_ok.mpr fun hnull => ⟨by simp [hnil, pre], ?_⟩
    unfold insertRoot at hnull ⊢
    cases hA : A.next rtt₁.nodes with
    | none => exact .first hA
    | some p =>
      rw [hA] at hnull
      exact absurd hnull h0
  · rw [if_neg (hs₁.root_eq_null.not.mpr hnil)]
    cases hs₁.insertBelowRoot_lands hnil h0 haddr hown with
    | diverges _ hrun =>
      rw [hrun]
      exact ensures_error
    | fills hrun _ _ _ _ _ _ =>
      rw [hrun]
      exact (fillNode_some rtt₁ _ h0).mono fun res hres hnull => absurd hnull hres
    | adds hrun _ _ _ _ _ hout _ =>
      rw [hrun]
      exact (insertNode_null rtt₁ A _ _ _ _ _ _ h0).mono fun res hres hnull => ⟨hout, hres hnull⟩

end

/-! ## What is left behind -/

/-- The head of the caller refers to no node, or to one of the tree. -/
def RtnInTree (rtt : RtTable) (rth : Ptr) : Prop :=
  (rtt.heads rth).rthRtn = NULL ∨ ∃ n, rtt.nodes.get (rtt.heads rth).rthRtn = some n

/-- After the insertion of `rth` that gave up the table `rtt'` is as `rtt` was before. -/
structure Unchanged (rtt rtt' : RtTable) (rth : Ptr) : Prop where
  nodes : ∀ p, rtt'.nodes.get p = rtt.nodes.get p
  root : rtt'.rttRoot = rtt.rttRoot
  inodes : rtt'.rttInodes = rtt.rttInodes
  routes : rtt'.rttRoutes = rtt.rttRoutes
  heads : ∀ rn x, HeadOf rtt rn x → rtt'.heads x = rtt.heads x
  alloc : ∃ t : Tree RtVal, Holds rtt'.nodes rtt'.rttRoot t ∧ rtt'.rttNfree ≤ rtt'.rttNmalloc ∧
    rtt'.rttNmalloc - rtt'.rttNfree = t.size
  rtn : RtnInTree rtt' rth

/-- A table that has just lost the fresh node of a head is not as it was. -/
theorem not_rtnInTree_freed (rtt : RtTable) (rth : Ptr) (n : Nat) {A : Malloc RtNode} {p : Ptr}
    (hA : A.next rtt.nodes = some p) :
    ¬ RtnInTree ((Shape.withNode rtt rth p n).freeNode p) rth := by
  have hrtn : (((Shape.withNode rtt rth p n).freeNode p).heads rth).rthRtn = p :=
    (Shape.heads_setRtn rtt rth p).1
  unfold RtnInTree
  rw [hrtn]
  rintro (h0 | ⟨m, hm⟩)
  · exact (A.fresh _ _ hA).2 h0
  · have hgone : ((Shape.withNode rtt rth p n).freeNode p).nodes.get p = none :=
      Heap.get_erase_self _ p
    rw [hgone] at hm
    cases hm

/-- An insertion for which the memory runs out leaves everything as it was if and only if the first
node was not to be had, and the head did not refer to a node out of the tree before. -/
theorem insert_fails_iff {marker : Ptr → Bool} {rtt₀ : RtTable} (hnew : NewTable rtt₀)
    (hcount : rtt₀.rttNmalloc = rtt₀.rttNfree) {s : TableState}
    (hreached : OpxCommonUtils.Reached TableState.step (fun s l => l.Allowed marker s)
      ⟨rtt₀, .outside⟩ s)
    {A : Malloc RtNode} {copyOk : Bool} {rth : Ptr} {addr : Addr} {n : Nat}
    (hallow : TableLabel.Allowed marker s (.insert A copyOk rth addr n)) {rtt₁ rtt' : RtTable}
    (hcopy : (writeAddr s.rtt rth addr).prepareKey copyOk rth = .ok (true, rtt₁))
    (hfails : (writeAddr s.rtt rth addr).stdRadixInsert A copyOk rth n = .ok (NULL, rtt')) :
    Unchanged s.rtt rtt' rth ↔ A.next s.rtt.nodes = none ∧ RtnInTree s.rtt rth := by
  obtain ⟨⟨t, hwalk⟩, haccounts⟩ := hnew.reached_accounts hreached
  have htally : s.rtt.rttNmalloc = s.rtt.rttNfree + t.size := by
    have halloc := haccounts.alloc t hwalk.shape
    omega
  have hown := hwalk.insert_own hallow
  obtain ⟨h0, -, hn, -⟩ := hallow
  -- the table with the key prepared
  have hs₁ := (hwalk.setHead_addr rth addr).shape
  have hprep := (hs₁.prepareKey_spec copyOk h0 (rthAddr_writeAddr _ _ _) hn hown _ hcopy).resolve_left
    fun heq => by cases heq
  obtain ⟨-, hprep⟩ := hprep
  obtain ⟨hd, hrtn, rfl⟩ := hprep.only
  obtain ⟨a, ha, hK⟩ := hprep.key
  have hown₁ := hprep.own
  rw [← hK] at hown₁
  rw [Shape.stdRadixInsert_of_prepared A n hcopy hwalk.plain] at hfails
  obtain ⟨hout, hgives⟩ := hprep.shape.insertKey_null A h0 ha hown₁ _ hfails rfl
  rw [(heads_writeAddr s.rtt rth addr rth).1] at hrtn
  cases hgives with
  | first hA =>
    have hself : ∀ q, q ≠ rth → (((writeAddr s.rtt rth addr).setHead rth hd).heads q) =
        s.rtt.heads q := by
      intro q hq
      rw [RtTable.heads_setHead, if_neg hq, writeAddr, RtTable.heads_setHead, if_neg hq]
    have hrth : ((writeAddr s.rtt rth addr).setHead rth hd).heads rth = hd := by
      rw [RtTable.heads_setHead, if_pos rfl]
    have hin : RtnInTree { (writeAddr s.rtt rth addr).setHead rth hd with
        rttNinserts := s.rtt.rttNinserts + 1 } rth ↔ RtnInTree s.rtt rth := by
      unfold RtnInTree
      dsimp only
      rw [hrth, hrtn]
      exact Iff.rfl
    constructor
    · intro h
      exact ⟨hA, hin.mp h.rtn⟩
    · rintro ⟨-, hrth'⟩
      refine ⟨fun _ => rfl, rfl, rfl, rfl, fun rn x hx => ?_, ⟨t, hwalk.shape.holds, ?_, ?_⟩,
        hin.mpr hrth'⟩
      · obtain ⟨c, v, l, r, heq, hv, -⟩ := hwalk.shape.headOf hx
        refine hself x fun hxr => hout _ (Shape.mem_of_plug heq) (hv.trans hxr)
      · exact htally.symm ▸ Nat.le_add_right _ _
      · change s.rtt.rttNmalloc - s.rtt.rttNfree = _
        rw [htally, Nat.add_sub_cancel_left]
  | second hA =>
    refine iff_of_false (fun h => not_rtnInTree_freed _ rth n hA h.rtn) ?_
    rintro ⟨hnone, -⟩
    exact absurd (hA.symm.trans hnone) (by simp)

/-- A table with the prefix 0/8. -/
def sampleOne : List TableLabel := [.insert .above true 10 (fun _ => 0) 8]

/-- The address 128.0.0.0. -/
def sampleAddr : Addr := fun i => if i = 0 then 128 else 0

/-- No node is to be had for 128/8: the table with 0/8 stays as it is. -/
theorem insert_fails_iff_sample : ∃ s rtt', runSteps TableState.step sampleOne sampleNew = some s ∧
    (writeAddr s.rtt 11 sampleAddr).stdRadixInsert (.ofList []) true 11 8 = .ok (NULL, rtt') ∧
    Unchanged s.rtt rtt' 11 := by
  have hrun : (runSteps TableState.step sampleOne sampleNew).map (fun s =>
      ((s.rtt.heads 11).rthRtn,
        decide (TableLabel.Allowed (fun _ => false) s (.insert (.ofList []) true 11 sampleAddr 8)),
        ((writeAddr s.rtt 11 sampleAddr).prepareKey true 11).toOption.map Prod.fst,
        ((writeAddr s.rtt 11 sampleAddr).stdRadixInsert (.ofList []) true 11 8).toOption.map
          Prod.fst)) = some (0, true, some true, some 0) := by decide +kernel
  obtain ⟨s, hs, hend⟩ := Option.map_eq_some_iff.mp hrun
  obtain ⟨hrtn, hend⟩ := Prod.mk.inj hend
  obtain ⟨hallow, hend⟩ := Prod.mk.inj hend
  obtain ⟨hcopy, hfails⟩ := Prod.mk.inj hend
  obtain ⟨rtt₁, hcopy⟩ := exec_fst_of_toOption hcopy
  obtain ⟨rtt', hfails⟩ := exec_fst_of_toOption hfails
  have hreached := OpxCommonUtils.Reached.runSteps_of_allMeet
    (fun s l => TableLabel.Allowed (fun _ => false) s l) sampleOne .init (by decide +kernel) hs
  refine ⟨s, rtt', hs, hfails, ?_⟩
  exact (insert_fails_iff (newTable_create 32 true fun _ => default) rfl hreached
    (of_decide_eq_true hallow) hcopy hfails).mpr ⟨rfl, .inl hrtn⟩

/-- One node is to be had for 128/8, which needs a second one: it is freed, and the head refers to
it still. -/
theorem insert_fails_dangling : ¬ ∀ (s : TableState) (A : Malloc RtNode) (rth : Ptr) (addr : Addr)
    (n : Nat) (rtt₁ rtt' : RtTable),
    OpxCommonUtils.Reached TableState.step (fun s l => TableLabel.Allowed (fun _ => false) s l)
      sampleNew s →
    TableLabel.Allowed (fun _ => false) s (.insert A true rth addr n) →
    (writeAddr s.rtt rth addr).prepareKey true rth = .ok (true, rtt₁) →
    (writeAddr s.rtt rth addr).stdRadixInsert A true rth n = .ok (NULL, rtt') →
    Unchanged s.rtt rtt' rth := by
  intro hclaim
  have hrun : (runSteps TableState.step sampleOne sampleNew).map (fun s =>
      (decide (TableLabel.Allowed (fun _ => false) s (.insert (.ofList [5]) true 11 sampleAddr 8)),
        ((writeAddr s.rtt 11 sampleAddr).prepareKey true 11).toOption.map Prod.fst,
        ((writeAddr s.rtt 11 sampleAddr).stdRadixInsert (.ofList [5]) true 11 8).toOption.map
          fun res => (res.1, (res.2.heads 11).rthRtn, (res.2.nodes.get 5).isSome))) =
      some (true, some true, some (0, 5, false)) := by decide +kernel
  obtain ⟨s, hs, hend⟩ := Option.map_eq_some_iff.mp hrun
  obtain ⟨hallow, hend⟩ := Prod.mk.inj hend
  obtain ⟨hcopy, hfails⟩ := Prod.mk.inj hend
  obtain ⟨rtt₁, hcopy⟩ := exec_fst_of_toOption hcopy
  obtain ⟨⟨rth', rtt'⟩, hres, hlast⟩ := Option.map_eq_some_iff.mp hfails
  obtain ⟨rfl, hlast⟩ := Prod.mk.inj hlast
  obtain ⟨hrtn, hgone⟩ := Prod.mk.inj hlast
  have hreached := OpxCommonUtils.Reached.runSteps_of_allMeet
    (fun s l => TableLabel.Allowed (fun _ => false) s l) sampleOne .init (by decide +kernel) hs
  have hsame := hclaim s (.ofList [5]) 11 sampleAddr 8 rtt₁ rtt' hreached
    (of_decide_eq_true hallow) hcopy (exec_eq_ok_of_toOption hres)
  have hleft := hsame.rtn
  unfold RtnInTree at hleft
  rw [hrtn] at hleft
  rcases hleft with h0 | ⟨m, hm⟩
  · exact absurd h0 (by decide)
  · rw [hm] at hgone
    cases hgone

end OpxCommonUtils.Radix
