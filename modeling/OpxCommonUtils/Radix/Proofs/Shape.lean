import OpxCommonUtils.Misc.LinkEdit
import OpxCommonUtils.Misc.TriePath
import OpxCommonUtils.Radix.Update

/-!
# The shape of a radix table

A table's nodes form a linked tree (`LinkTree.Holds`) that is a trie over the stored addresses
(`Trie.Wf`). `Shape` says so and nothing of locks, marks and counters, so that it also holds
inside a walk. The loops of the lookup routines are related to the path of a query.
-/

namespace OpxCommonUtils.Radix

open Tree Trie LinkTree

/-- A node reads as the first `rtn_bit` bits of the address of its head. -/
def view (heads : Ptr → RtHead) : View RtVal where
  len v := v.bit
  key v :=
    if v.rth = NULL then none
    else (heads v.rth).rdxRthAddr.map fun a => firstBits (bitAt a) v.bit

/-- A cell's test bit is that of its bit number, and its head knows an address and the cell. -/
structure Linked (heads : Ptr → RtHead) (x : Ptr × RtVal) : Prop where
  tbit : x.2.tbit = rnbit x.2.bit
  addr : x.2.rth ≠ NULL → ∃ a, (heads x.2.rth).rdxRthAddr = some a
  rtn : x.2.rth ≠ NULL → (heads x.2.rth).rthRtn = x.1

/-- The nodes of the table are the tree `t`. -/
structure Shape (rtt : RtTable) (t : Tree RtVal) : Prop where
  holds : Holds rtt.nodes rtt.rttRoot t
  wf : Wf (view rtt.heads) [] t
  linked : ∀ x ∈ t.pre, Linked rtt.heads x
  owned : ∀ p n, rtt.nodes.get p = some n → p ∈ t.ptrs

/-- The nodes of a table are one tree. -/
theorem holds_unique {h : Heap RtNode} {root : Ptr} {t t' : Tree RtVal} (ht : Holds h root t)
    (ht' : Holds h root t') : t = t' := by
  refine ht.rep.unique (fun {l r q l' r' q'} {v v'} heq => ?_) ht'.rep
    (ht.root_eq.symm.trans ht'.root_eq)
  obtain ⟨_, _, _, _, _, _⟩ := v
  obtain ⟨_, _, _, _, _, _⟩ := v'
  simp only [cell_rtNode, RtNode.mk.injEq] at heq
  obtain ⟨rfl, rfl, -, rfl, rfl, rfl, rfl, rfl, rfl⟩ := heq
  exact ⟨rfl, rfl, rfl⟩

@[simp] theorem len_view (heads : Ptr → RtHead) (v : RtVal) : (view heads).len v = v.bit := rfl

theorem key_view_eq_none {heads : Ptr → RtHead} {x : Ptr × RtVal} (hx : Linked heads x) :
    (view heads).key x.2 = none ↔ x.2.rth = NULL := by
  by_cases h0 : x.2.rth = NULL
  · simp [view, h0]
  · obtain ⟨a, ha⟩ := hx.addr h0
    simp [view, h0, ha]

theorem key_view_of_addr {heads : Ptr → RtHead} {v : RtVal} {a : Addr} (h0 : v.rth ≠ NULL)
    (ha : (heads v.rth).rdxRthAddr = some a) :
    (view heads).key v = some (firstBits (bitAt a) v.bit) := by
  simp [view, h0, ha]

theorem rdxAddr_ok {rtt : RtTable} {rth : Ptr} {a : Addr} (h0 : rth ≠ NULL)
    (ha : (rtt.heads rth).rdxRthAddr = some a) : rtt.rdxAddr rth = .ok a := by
  simp [RtTable.rdxAddr, RtTable.readHead, h0, ha]

/-- A node of the path holds a prefix of the query of at most `n` bits. -/
def matchesQuery (heads : Ptr → RtHead) (q : Nat → Bool) (n : Nat) (g : Frame RtVal) : Bool :=
  decide (g.val.bit ≤ n ∧ (view heads).key g.val = some (firstBits q g.val.bit))

/-- The child `p` of a node is exchanged for `q`, whichever side it is on and is tried first. -/
theorem replaceChild_spec {h : Heap RtNode} {fp p q sib par : Ptr} {side : Side} {v : RtVal}
    (first : Side) (hget : h.get fp = some (mkSide side p sib par v)) (hne : sib ≠ p) :
    RtTable.replaceChild h first fp p q = .ok (h.set fp (mkSide side q sib par v)) := by
  rw [RtTable.replaceChild, Heap.deref_ok hget, exec_bind_ok]
  cases first <;> cases side <;>
    simp [Heap.update_ok hget, mkSide, cell_rtNode, hne]

namespace Shape

variable {rtt : RtTable} {t : Tree RtVal}

/-- The cell of a node of the tree. -/
theorem get_node (hs : Shape rtt t) {c : List (Frame RtVal)} {p : Ptr} {v : RtVal}
    {l r : Tree RtVal} (heq : plug c (.node p v l r) = t) :
    rtt.nodes.get p = some (NodeLayout.cell (l.root NULL) (r.root NULL) (Ctx.top NULL c) v) := by
  have hrep := hs.holds.rep
  rw [← heq, rep_plug] at hrep
  exact hrep.2.2.1

/-- The cell of a node on a path. -/
theorem get_frame (hs : Shape rtt t) {f : Frame RtVal} {c : List (Frame RtVal)} {s : Tree RtVal}
    (heq : plug (f :: c) s = t) :
    rtt.nodes.get f.ptr =
      some (mkSide f.side (s.root NULL) (f.sib.root NULL) (Ctx.top NULL c) f.val) := by
  have hrep := hs.holds.rep
  rw [← heq, plug_cons, rep_plug, rep_join] at hrep
  exact hrep.2.2.1

theorem mem_pre_of_frame {f : Frame RtVal} {c : List (Frame RtVal)} {s : Tree RtVal}
    (hf : f ∈ c) : (f.ptr, f.val) ∈ (plug c s).pre := by
  induction c generalizing s with
  | nil => simp at hf
  | cons g c ih =>
    rcases List.mem_cons.mp hf with rfl | hf
    · rw [plug_cons, pre_plug]
      cases f.side <;> simp [join, pre]
    · exact ih hf

theorem linked_frame (hs : Shape rtt t) {f : Frame RtVal} {c : List (Frame RtVal)}
    {s : Tree RtVal} (heq : plug c s = t) (hf : f ∈ c) : Linked rtt.heads (f.ptr, f.val) :=
  hs.linked _ (heq ▸ mem_pre_of_frame hf)

theorem ptr_ne_null (hs : Shape rtt t) {p : Ptr} (hp : p ∈ t.ptrs) : p ≠ NULL :=
  (hs.holds.live hp).1

theorem frame_ne_null (hs : Shape rtt t) {f : Frame RtVal} {c : List (Frame RtVal)}
    {s : Tree RtVal} (heq : plug c s = t) (hf : f ∈ c) : f.ptr ≠ NULL := by
  refine hs.ptr_ne_null ?_
  rw [← map_fst_pre]
  exact List.mem_map_of_mem (f := Prod.fst) (heq ▸ mem_pre_of_frame hf)

theorem root_eq_null (hs : Shape rtt t) : rtt.rttRoot = NULL ↔ t = .nil := by
  rw [hs.holds.root_eq]
  cases t with
  | nil => simp
  | node p v l r => simpa using hs.ptr_ne_null (p := p) (by simp [ptrs])

theorem root_of_subtree (hs : Shape rtt t) {c : List (Frame RtVal)} {s : Tree RtVal}
    (heq : plug c s = t) : s.root NULL = NULL ↔ s = .nil := by
  cases s with
  | nil => simp
  | node p v l r =>
    have hp : p ∈ t.ptrs := by
      rw [← heq, mem_ptrs_plug]
      simp [ptrs]
    simpa using hs.ptr_ne_null hp

/-! ## The descent -/

theorem descend_from (hs : Shape rtt t) {go : RtNode → Bool} {goV : RtVal → Bool}
    (hgo : ∀ l r p v, go (NodeLayout.cell l r p v) = goV v) (addr : Addr) :
    ∀ (fuel : Nat) (s : Tree RtVal) (c : List (Frame RtVal)), plug c s = t → s ≠ .nil →
      s.size ≤ fuel → OnPath (view rtt.heads) (bitAt addr) c → (∀ g ∈ c, goV g.val = true) →
      ∃ f d near, Landing (view rtt.heads) (bitAt addr) goV t f d near ∧
        RtTable.descend rtt.nodes go addr fuel (s.root NULL) = .ok f.ptr := by
  intro fuel
  induction fuel with
  | zero =>
    intro s c _ hne hsize
    cases s with
    | nil => exact absurd rfl hne
    | node p v l r => simp [size] at hsize
  | succ fuel ih =>
    intro s c heq hne hsize hq hpass
    cases s with
    | nil => exact absurd rfl hne
    | node p v l r =>
      have hget := hs.get_node heq
      have htbit : v.tbit = rnbit v.bit :=
        (hs.linked (p, v) (by rw [← heq, pre_plug]; simp [pre])).tbit
      obtain ⟨side, near, far, hjoin, hbit, hnear⟩ := exists_join p v l r (bitAt addr v.bit)
      have hframe : plug (⟨side, p, v, far⟩ :: c) near = t := by
        rw [plug_cons, ← hjoin, heq]
      have honpath : OnPath (view rtt.heads) (bitAt addr) (⟨side, p, v, far⟩ :: c) := by
        intro g hg
        rcases List.mem_cons.mp hg with rfl | hg
        · exact hbit
        · exact hq g hg
      -- the child the code looks at is the one on the side of the query
      have hchild : RtTable.descend rtt.nodes go addr (fuel + 1) p =
          if goV v = true then
            if near.root NULL = NULL then .ok p
            else RtTable.descend rtt.nodes go addr fuel (near.root NULL)
          else .ok p := by
        rw [RtTable.descend, Heap.deref_ok hget, exec_bind_ok, hgo]
        simp only [cell_rtNode, htbit, bitTest_rnbit, hnear]
        cases bitAt addr v.bit <;> rfl
      rw [root_node, hchild]
      by_cases hg : goV v = true
      · rw [if_pos hg]
        by_cases hnil : near = .nil
        · rw [if_pos ((hs.root_of_subtree hframe).mpr hnil)]
          exact ⟨_, c, near, ⟨hframe, honpath, hpass, fun _ => hnil⟩, rfl⟩
        · rw [if_neg ((hs.root_of_subtree hframe).not.mpr hnil)]
          refine ih near _ hframe hnil ?_ honpath ?_
          · rw [hjoin, size_join] at hsize
            omega
          · intro g hg'
            rcases List.mem_cons.mp hg' with rfl | hg'
            · exact hg
            · exact hpass g hg'
      · rw [if_neg hg]
        exact ⟨_, c, near, ⟨hframe, honpath, hpass, fun h => absurd h hg⟩, rfl⟩

/-- The descent ends at a landing. -/
theorem descend_spec (hs : Shape rtt t) (go : RtNode → Bool) (goV : RtVal → Bool)
    (hne : t ≠ .nil) (hgo : ∀ l r p v, go (NodeLayout.cell l r p v) = goV v) (addr : Addr) :
    ∃ f c near, Landing (view rtt.heads) (bitAt addr) goV t f c near ∧
      RtTable.descend rtt.nodes go addr (rtt.nodes.bound + 1) rtt.rttRoot = .ok f.ptr := by
  rw [hs.holds.root_eq]
  refine hs.descend_from hgo addr _ t [] rfl hne ?_ (by simp [OnPath]) (by simp)
  have := hs.holds.size_le
  omega

/-! ## Looking back -/

/-- A node of a path read off the heap. -/
theorem deref_frame (hs : Shape rtt t) {f : Frame RtVal} {c : List (Frame RtVal)}
    {s : Tree RtVal} (heq : plug (f :: c) s = t) :
    ∃ n, rtt.nodes.deref f.ptr = .ok n ∧ n.rtnParent = Ctx.top NULL c ∧ n.rtnBit = f.val.bit ∧
      n.rtnTbit = f.val.tbit ∧ n.rtnFlags = f.val.flags ∧ n.rtnLock = f.val.lock ∧
      n.rtnVersion = f.val.version ∧ n.rtnRth = f.val.rth := by
  refine ⟨_, Heap.deref_ok (hs.get_frame heq), ?_⟩
  cases f.side <;> exact ⟨rfl, rfl, rfl, rfl, rfl, rfl, rfl⟩

theorem length_path (hs : Shape rtt t) {c : List (Frame RtVal)} {s : Tree RtVal}
    (heq : plug c s = t) : c.length ≤ rtt.nodes.bound := by
  have hsize := hs.holds.size_le
  have hc := Ctx.length_le_ptrs c
  rw [← heq, size_plug] at hsize
  omega

/-- The walk back finds the nearest matching node. -/
theorem backtrack_spec (hs : Shape rtt t) (addr : Addr) (n : Nat) :
    ∀ (fuel : Nat) (c : List (Frame RtVal)) (s : Tree RtVal), plug c s = t → c.length < fuel →
      RtTable.backtrack rtt addr n fuel (Ctx.top NULL c) =
        .ok ((c.find? (matchesQuery rtt.heads (bitAt addr) n)).elim NULL Frame.ptr) := by
  intro fuel
  induction fuel with
  | zero => intro c s _ hlen; omega
  | succ fuel ih =>
    intro c s heq hlen
    cases c with
    | nil => rfl
    | cons f c =>
      obtain ⟨m, hm, hpar, hbit, htbit, -, -, -, hrth⟩ := hs.deref_frame heq
      have hlinked := hs.linked_frame heq (List.mem_cons_self (a := f) (l := c))
      have hne := hs.frame_ne_null heq (List.mem_cons_self (a := f) (l := c))
      have hup := ih c (join f.side f.ptr f.val s f.sib) heq (by simpa using hlen)
      have hstep : RtTable.backtrack rtt addr n (fuel + 1) f.ptr =
          if matchesQuery rtt.heads (bitAt addr) n f = true then .ok f.ptr
          else RtTable.backtrack rtt addr n fuel (Ctx.top NULL c) := by
        rw [RtTable.backtrack, if_neg hne, hm, exec_bind_ok, hpar, hbit, htbit, hrth,
          hlinked.tbit]
        by_cases hn : n < f.val.bit
        · rw [if_pos hn, if_neg (by simp [matchesQuery]; omega)]
        · rw [if_neg hn]
          by_cases h0 : f.val.rth = NULL
          · rw [if_pos h0, if_neg (by simp [matchesQuery, view, h0])]
          · obtain ⟨a, ha⟩ := hlinked.addr h0
            rw [if_neg h0, rdxAddr_ok h0 ha, exec_bind_ok]
            have hmatch : matchesQuery rtt.heads (bitAt addr) n f =
                !rdxCompareAddress addr a (rnbyte f.val.bit) (rnbit f.val.bit) := by
              rw [Bool.eq_iff_iff, Bool.not_eq_true', rdxCompareAddress_eq_false, matchesQuery,
                decide_eq_true_iff, key_view_of_addr h0 ha, Option.some_inj, eq_comm]
              exact and_iff_right (by omega)
            rw [hmatch]
            cases rdxCompareAddress addr a (rnbyte f.val.bit) (rnbit f.val.bit) <;> rfl
      rw [Ctx.top_cons, hstep, List.find?_cons]
      cases matchesQuery rtt.heads (bitAt addr) n f with
      | true => rfl
      | false => exact hup

end Shape

end OpxCommonUtils.Radix
