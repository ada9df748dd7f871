import OpxCommonUtils.Radix.Proofs.Next
import OpxCommonUtils.Radix.Proofs.WalkReturn

/-!
# Assertions and heads outside walks

Outside walks no assertion of the table fails, no head is read that is not there, and every loop
ends, for keys of at most 65528 bits (`calls_run`). A failed assertion, a read through `NULL` and a
loop that never ends are the faults of the model, so what is proved is that the calls deliver.
-/

namespace OpxCommonUtils.Radix

open Tree Trie LinkTree RtTable

section
variable {rtt : RtTable} {t : Tree RtVal}

/-- Where the descent of an insertion or of `std_radix_getnext` stops there is a head, whose key can
be read. -/
theorem Shape.descend_head (hs : Shape rtt t) (hroot : rtt.rttRoot ≠ NULL) (addr : Addr) (n : Nat) :
    ∃ rtn m a, descend rtt.nodes (shorterOrGlue n) addr (rtt.nodes.bound + 1) rtt.rttRoot =
        .ok rtn ∧ rtt.nodes.get rtn = some m ∧ m.rtnRth ≠ NULL ∧ rtt.rdxAddr m.rtnRth = .ok a := by
  obtain ⟨f, c, near, hl, hdesc⟩ := hs.descend_spec (shorterOrGlue n) (Shape.passes n)
    (hs.root_eq_null.not.mp hroot) (fun _ _ _ _ => rfl) addr
  obtain ⟨m, hm, -, -, -, -, -, -, hrth⟩ := hs.deref_frame hl.plug_eq
  have hlinked := hs.linked_frame hl.plug_eq (List.mem_cons_self (a := f))
  -- a node without a head has two children, so the descent goes on
  have h0 : f.val.rth ≠ NULL := by
    refine (key_view_eq_none hlinked).not.mp (hl.key_ne_none hs.wf fun hnone => ?_)
    have hnull : f.val.rth = NULL := (key_view_eq_none hlinked).mp hnone
    simp [Shape.passes, hnull]
  obtain ⟨a, ha⟩ := hlinked.addr h0
  refine ⟨f.ptr, m, a, hdesc, Heap.deref_eq_ok.mp hm, hrth.trans_ne h0, ?_⟩
  rw [hrth]
  exact rdxAddr_ok h0 ha

/-- The search for a head from a place of the tree. -/
theorem Shape.firstHead_runs (hs : Shape rtt t) {rest : List (Ptr × RtVal)} {p : Ptr}
    (hcur : Cursor t rest p) :
    firstHead rtt.nodes (rtt.nodes.bound + 1) p = .ok (firstRth rest) := by
  refine hs.firstHead_spec _ rest p hcur ?_
  have hsub := hcur.sublist.length_le
  have hsize := hs.holds.size_le
  rw [← length_ptrs, ← map_fst_pre, List.length_map] at hsize
  omega

/-- `std_radix_getnext` delivers, whatever the query. -/
theorem Shape.getnext_runs (hs : Shape rtt t) (hdebug : rtt.rttDebug = false) (dest : Option Addr)
    {n : Nat} (hn : n ≤ 65528) : ∃ r, rtt.stdRadixGetnext dest n = .ok r := by
  unfold stdRadixGetnext
  rw [hdebug]
  simp only [Bool.false_and, Bool.false_eq_true, if_false]
  by_cases hroot : rtt.rttRoot = NULL
  · exact ⟨NULL, by rw [if_pos hroot]; rfl⟩
  rw [if_neg hroot]
  have hnil := hs.root_eq_null.not.mp hroot
  have hfrom : ∀ {p : Ptr} {rest : List (Ptr × RtVal)}, Cursor t rest p →
      ∃ r, firstHead rtt.nodes (rtt.nodes.bound + 1) p = .ok r :=
    fun hcur => ⟨_, hs.firstHead_runs hcur⟩
  cases dest with
  | none =>
    exact hfrom (.inr ⟨[], t, rfl, hnil, hs.holds.root_eq, rfl⟩)
  | some dest =>
    obtain ⟨f, c, near, his, hl, -, -, hcases⟩ := hs.nextStart_cases hnil (rtt.queryAddr dest) hn
    dsimp only
    rcases hcases with ⟨-, -, hstart⟩ | ⟨-, p, rest, hstart, hcur, -⟩
    · rw [hstart, exec_bind_ok]
      exact hfrom (.inr ⟨c, _, hl.plug_eq, join_ne_nil _ _ _ _ _, (root_join ..).symm, rfl⟩)
    · rw [hstart, exec_bind_ok]
      exact hfrom hcur

/-- An insertion of a prepared head delivers. -/
theorem Shape.insertKey_runs (hs : Shape rtt t) (A : Malloc RtNode) {rth : Ptr} {addr : Addr}
    {n : Nat} (hn : n ≤ 65528) (h0 : rth ≠ NULL) (haddr : (rtt.heads rth).rdxRthAddr = some addr)
    (hown : ∀ x ∈ t.pre, x.2.rth = rth → (firstBits (bitAt addr) n, x) ∈ entries (view rtt.heads) t ∧
      rdxTestBit x.2.flags RDX_RN_DELE_BIT = false) : ∃ res, rtt.insertKey A rth n = .ok res := by
  have hspec := hs.insertKey_spec A h0 haddr hown
  cases hrun : rtt.insertKey A rth n with
  | ok res => exact ⟨res, rfl⟩
  | error e =>
    rw [hrun] at hspec
    cases hspec with
    | diverges hlong => omega

variable {marker : Ptr → Bool} {s : TableState}

/-- An insertion delivers, unless its key cannot be prepared. -/
theorem WalkOk.insert_runs (h : WalkOk s t) {A : Malloc RtNode} {copyOk : Bool} {rth : Ptr}
    {addr : Addr} {n : Nat} (hn : n ≤ 65528)
    (hallow : TableLabel.Allowed marker s (.insert A copyOk rth addr n))
    (hkey : ∃ res, (writeAddr s.rtt rth addr).prepareKey copyOk rth = .ok res) :
    ∃ res, (writeAddr s.rtt rth addr).stdRadixInsert A copyOk rth n = .ok res := by
  have hown := h.insert_own hallow
  obtain ⟨h0, -, hmax, -⟩ := hallow
  obtain ⟨⟨ok, rtt₁⟩, hprep⟩ := hkey
  rcases (h.setHead_addr rth addr).shape.prepareKey_spec copyOk h0 (rthAddr_writeAddr _ _ _) hmax
    hown _ hprep with heq | ⟨hok, hdone⟩
  · obtain ⟨rfl, rfl⟩ := Prod.mk.inj heq
    refine ⟨(NULL, writeAddr s.rtt rth addr), ?_⟩
    rw [stdRadixInsert, hprep, exec_bind_ok]
    rfl
  · obtain rfl : ok = true := hok
    obtain ⟨hd, -, hrtt₁⟩ := hdone.only
    dsimp only at hrtt₁
    obtain ⟨a, ha, hK⟩ := hdone.key
    have hown₁ := hdone.own
    rw [← hK] at hown₁
    rw [Shape.stdRadixInsert_of_prepared A n hprep (hrtt₁ ▸ h.plain)]
    exact hdone.shape.insertKey_runs A hn h0 ha hown₁

/-- A removal outside walks delivers. -/
theorem WalkOk.remove_runs (h : WalkOk s t) (hout : s.control = .outside) {rth : Ptr}
    (hof : ∃ rn, HeadOf s.rtt rn rth) : ∃ rtt', s.rtt.stdRadixRemove rth = .ok rtt' := by
  obtain ⟨rn, hof⟩ := hof
  obtain ⟨c, v, l, r, heq, -, h0, hrtn⟩ := h.shape.headOf hof
  have hplaced := h.placed
  rw [hout] at hplaced
  obtain ⟨hlocks, -⟩ := hplaced
  let rtt₁ : RtTable := { s.rtt with rttNremoves := s.rtt.rttNremoves + 1 }
  have hs₁ : Shape rtt₁ t := h.shape.of_heads (fun _ => rfl) rfl h.shape.keeps_self
  have hlock : v.lock = 0 := hlocks _ (Shape.mem_of_plug heq)
  obtain ⟨t', ps, ret, rtt', -, hres, -⟩ :=
    hs₁.removeNode_spec .walkup heq hlock fun f d hc _ _ _ =>
      hlocks _ (heq ▸ hc ▸ Shape.mem_pre_of_frame List.mem_cons_self)
  have hread : rtt₁.readHead rth = .ok (s.rtt.heads rth) := by rw [readHead, if_neg h0]
  refine ⟨rtt'.unlinkChange rth, ?_⟩
  unfold stdRadixRemove
  dsimp only
  rw [hread, exec_bind_ok, hrtn, hs₁.deref_cell heq, exec_bind_ok,
    if_neg (by simp [cell_rtNode, hlock]), hres]
  rfl

end

/-- Outside walks the routines deliver: the descents stop at a head, no assertion fails and no loop
goes on for ever. Keys are inserted and searched for with at most `limit` bits. Where a key is
converted, the assertion about its stored copy is left to `prepareKey`. -/
structure CallsRun (marker : Ptr → Bool) (limit : Nat) (s : TableState) : Prop where
  stops : s.rtt.rttRoot ≠ NULL → ∀ (addr : Addr) (bitlen : Nat), bitlen ≤ s.rtt.rttMaxaddrlen →
    ∃ rtn n a, descend s.rtt.nodes (shorterOrGlue bitlen) addr (s.rtt.nodes.bound + 1)
        s.rtt.rttRoot = .ok rtn ∧ s.rtt.nodes.get rtn = some n ∧ n.rtnRth ≠ NULL ∧
      s.rtt.rdxAddr n.rtnRth = .ok a
  insert : ∀ (A : Malloc RtNode) (copyOk : Bool) (rth : Ptr) (addr : Addr) (bitlen : Nat),
    TableLabel.Allowed marker s (.insert A copyOk rth addr bitlen) → bitlen ≤ limit →
    (∃ res, (writeAddr s.rtt rth addr).prepareKey copyOk rth = .ok res) →
    ∃ res, (writeAddr s.rtt rth addr).stdRadixInsert A copyOk rth bitlen = .ok res
  getnext : ∀ (dest : Option Addr) (bitlen : Nat), bitlen ≤ s.rtt.rttMaxaddrlen → bitlen ≤ limit →
    ∃ r, s.rtt.stdRadixGetnext dest bitlen = .ok r
  remove : ∀ rth, (∃ rn, HeadOf s.rtt rn rth) → ∃ rtt', s.rtt.stdRadixRemove rth = .ok rtt'

/-- In every table that calls lead to, outside walks, the routines deliver for keys of at most 65528
bits. -/
theorem calls_run {marker : Ptr → Bool} {rtt₀ : RtTable} (hnew : NewTable rtt₀) {s : TableState}
    (hreached : OpxCommonUtils.Reached TableState.step (fun s l => l.Allowed marker s)
      ⟨rtt₀, .outside⟩ s)
    (hout : s.control = .outside) : CallsRun marker 65528 s := by
  obtain ⟨t, hwalk⟩ : ∃ t, WalkOk s t := by
    refine hreached.invariant (P := fun s => ∃ t, WalkOk s t) ⟨_, hnew.walkOk⟩ ?_
    rintro s₁ s₂ label ⟨t, hwalk⟩ hallow hstep
    exact hwalk.step hallow hstep
  constructor
  · intro hroot addr bitlen _
    exact hwalk.shape.descend_head hroot addr bitlen
  · intro A copyOk rth addr bitlen hallow hlimit hkey
    exact hwalk.insert_runs hlimit hallow hkey
  · intro dest bitlen _ hlimit
    exact hwalk.shape.getnext_runs hwalk.plain dest hlimit
  · intro rth hof
    exact hwalk.remove_runs hout hof

/-- After two insertions and a removal every call delivers, so does a search for a successor. -/
theorem calls_run_sample : ∃ s r, runSteps TableState.step [.insert .above true 10 (fun _ => 0) 8,
      .insert .above true 11 (fun _ => 0) 16, .remove 10] sampleNew = some s ∧
    s.rtt.stdRadixGetnext (some fun _ => 10) 8 = .ok r := by
  have hrun : (runSteps TableState.step [.insert .above true 10 (fun _ => 0) 8,
      .insert .above true 11 (fun _ => 0) 16, .remove 10] sampleNew).map (fun s =>
        (s.control, s.rtt.rttMaxaddrlen)) = some (Control.outside, 32) := by decide +kernel
  obtain ⟨s, hs, hend⟩ := Option.map_eq_some_iff.mp hrun
  obtain ⟨hout, hmax⟩ := Prod.mk.inj hend
  have hreached := OpxCommonUtils.Reached.runSteps_of_allMeet
    (fun s l => TableLabel.Allowed (fun _ => false) s l) _ .init (by decide +kernel) hs
  have hsafe := calls_run (newTable_create 32 true fun _ => default) hreached hout
  obtain ⟨r, hr⟩ := hsafe.getnext (some fun _ => 10) 8 (hmax ▸ by decide) (by decide)
  exact ⟨s, r, hs, hr⟩

/-- In a table with one head of 65535 bits the comparison of `std_radix_getnext` with a query of
65530 bits never ends. -/
theorem calls_run_wraps : ¬ ∀ s, OpxCommonUtils.Reached TableState.step
      (fun s l => TableLabel.Allowed (fun _ => false) s l)
      ⟨stdRadixCreate 65535 true fun _ => default, .outside⟩ s →
    s.control = .outside → CallsRun (fun _ => false) s.rtt.rttMaxaddrlen s := by
  intro hclaim
  obtain ⟨rtt, hrun, hroot, hget, haddr, hdebug, hconv, hmax⟩ := first_insert 65535
  let s₀ : TableState := ⟨stdRadixCreate 65535 true fun _ => default, .outside⟩
  have hexec : s₀.exec (.insert .above true 1 (fun _ => 0) 65535) = .ok ⟨rtt, .outside⟩ := by
    change (TableOp.run s₀.rtt (.insert .above true 1 (fun _ => 0) 65535) >>= _) = _
    rw [hrun]
    rfl
  have hallow : TableLabel.Allowed (fun _ => false) s₀
      (.insert .above true 1 (fun _ => 0) 65535) := by decide
  have hreached : OpxCommonUtils.Reached TableState.step
      (fun s l => TableLabel.Allowed (fun _ => false) s l) s₀ ⟨rtt, .outside⟩ :=
    .step .init hallow (step_of_exec rfl hexec)
  obtain ⟨r, hr⟩ := (hclaim _ hreached rfl).getnext (some fun _ => 0) 65530
    (hmax ▸ by decide) (hmax ▸ by decide)
  have hne : rtt.rttRoot ≠ NULL := by simp [hroot]
  have hquery : rtt.queryAddr (fun _ => 0) = fun _ => 0 := by rw [queryAddr, hconv]
  unfold stdRadixGetnext at hr
  simp only [hdebug, Bool.false_and, Bool.false_eq_true, if_false, hne, hquery,
    nextStart_wraps hroot hget haddr, exec_bind_error] at hr
  cases hr

end OpxCommonUtils.Radix
