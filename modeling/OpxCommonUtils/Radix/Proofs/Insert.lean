import OpxCommonUtils.Radix.Proofs.Shape

/-!
# Insertion keeps the shape of the table

`InsertOutcome` lists what an insertion can do to a table of a given shape: return the head that
is there, fail for want of memory, replace a head that is marked for deletion, or add the key in
one of the places of `Grown`. `insertBelowRoot_spec` proves that nothing else happens.
-/

namespace OpxCommonUtils.Radix

open Tree Trie LinkTree

/-- The payload of a new node. -/
def newVal (bit : Nat) (rth : Ptr) (version : Nat) : RtVal := ⟨bit, rnbit bit, 0, 0, version, rth⟩

/-- How a tree grows by a head `rth` of prefix length `n`: the head fills a node that has none,
or it comes with a new node, which is the root, a leaf, a node above a subtree, or beside a
subtree under a new node without a head. -/
inductive Grown (n : Nat) (rth : Ptr) : Tree RtVal → Tree RtVal → Prop
  | root {pa : Ptr} : Grown n rth .nil (.node pa (newVal n rth 0) .nil .nil)
  | fill {c : List (Frame RtVal)} {p : Ptr} {v : RtVal} {l r : Tree RtVal} : v.rth = NULL →
      Grown n rth (plug c (.node p v l r))
        (plug c (.node p { v with rth := rth, flags := rdxClearBit v.flags RDX_RN_DELE_BIT } l r))
  | attach {f : Frame RtVal} {c : List (Frame RtVal)} {pa : Ptr} :
      Grown n rth (plug (f :: c) .nil) (plug (f :: c) (.node pa (newVal n rth 0) .nil .nil))
  | above {c : List (Frame RtVal)} {s : Side} {pn p : Ptr} {v : RtVal} {l r : Tree RtVal} :
      Grown n rth (plug c (.node p v l r))
        (plug c (join s pn (newVal n rth v.version) (.node p v l r) .nil))
  | beside {c : List (Frame RtVal)} {s : Side} {pn p pa : Ptr} {v : RtVal} {l r : Tree RtVal}
      {d : Nat} : d < n →
      Grown n rth (plug c (.node p v l r))
        (plug c (join s pn (newVal d NULL v.version) (.node p v l r)
          (.node pa (newVal n rth 0) .nil .nil)))

/-- The fields that make up a table's configuration are the same. -/
def SameConfig (rtt rtt' : RtTable) : Prop :=
  rtt'.rttMaxaddrlen = rtt.rttMaxaddrlen ∧ rtt'.rttDebug = rtt.rttDebug ∧
    rtt'.rttRmfree = rtt.rttRmfree ∧ rtt'.rttConvert = rtt.rttConvert ∧
    rtt'.rttRadicalused = rtt.rttRadicalused ∧ rtt'.rttCarused = rtt.rttCarused

/-- The counters went up by `dn` nodes and `dr` routes. -/
structure Counted (rtt rtt' : RtTable) (dn dr : Nat) : Prop where
  inodes : rtt'.rttInodes = rtt.rttInodes + dn
  alloc : rtt'.rttNmalloc + rtt.rttNfree = rtt.rttNmalloc + rtt'.rttNfree + dn
  routes : rtt'.rttRoutes = rtt.rttRoutes + dr
  config : SameConfig rtt rtt'

/-- What `std_radix_insert` of the head `rth` under the key `K` of `n` bits may do to a table of
shape `t`. -/
inductive InsertOutcome (rtt : RtTable) (t : Tree RtVal) (A : Malloc RtNode) (rth : Ptr)
    (K : List Bool) (n : Nat) : Exec (Ptr × RtTable) → Prop
  | diverges : 65528 < n → InsertOutcome rtt t A rth K n (.error .diverges)
  | present {rtt' : RtTable} {x : Ptr × RtVal} : (K, x) ∈ entries (view rtt.heads) t →
      rdxTestBit x.2.flags RDX_RN_DELE_BIT = false → Shape rtt' t →
      entries (view rtt'.heads) t = entries (view rtt.heads) t → Counted rtt rtt' 0 0 →
      InsertOutcome rtt t A rth K n (.ok (x.2.rth, rtt'))
  | noMemory {rtt' : RtTable} {h : Heap RtNode} : A.next h = none → Shape rtt' t →
      entries (view rtt'.heads) t = entries (view rtt.heads) t → Counted rtt rtt' 0 0 →
      InsertOutcome rtt t A rth K n (.ok (NULL, rtt'))
  | added {rtt' : RtTable} {t' : Tree RtVal} {p : Ptr} {v : RtVal} : Grown n rth t t' →
      Shape rtt' t' → v.rth = rth →
      (entries (view rtt'.heads) t').Perm ((K, p, v) :: entries (view rtt.heads) t) →
      Counted rtt rtt' (t'.size - t.size) 1 → InsertOutcome rtt t A rth K n (.ok (rth, rtt'))
  | replaced {rtt' : RtTable} {c : List (Frame RtVal)} {p : Ptr} {v : RtVal} {l r : Tree RtVal} :
      t = plug c (.node p v l r) → (K, p, v) ∈ entries (view rtt.heads) t →
      rdxTestBit v.flags RDX_RN_DELE_BIT = true →
      Shape rtt' (plug c (.node p
        { v with rth := rth, flags := rdxClearBit v.flags RDX_RN_DELE_BIT } l r)) →
      Counted rtt rtt' 0 1 → InsertOutcome rtt t A rth K n (.ok (rth, rtt'))

/-! ## Heads -/

/-- The heads a tree holds still know their node and an address with the same key. -/
def Keeps (heads heads' : Ptr → RtHead) (t : Tree RtVal) : Prop :=
  ∀ x ∈ t.pre, x.2.rth ≠ NULL → (heads' x.2.rth).rthRtn = x.1 ∧
    ∃ a, (heads' x.2.rth).rdxRthAddr = some a ∧
      (view heads).key x.2 = some (firstBits (bitAt a) x.2.bit)

theorem Keeps.key {heads heads' : Ptr → RtHead} {t : Tree RtVal} (hk : Keeps heads heads' t) :
    ∀ x ∈ t.pre, (view heads').key x.2 = (view heads).key x.2 := by
  intro x hx
  by_cases h0 : x.2.rth = NULL
  · simp [view, h0]
  · obtain ⟨-, a, ha, hkey⟩ := hk x hx h0
    rw [hkey, key_view_of_addr h0 ha]

theorem Keeps.entries {heads heads' : Ptr → RtHead} {t : Tree RtVal}
    (hk : Keeps heads heads' t) : entries (view heads') t = entries (view heads) t :=
  entries_congr hk.key

namespace Shape

variable {rtt rtt' : RtTable} {t : Tree RtVal}

/-- The shape is kept when only memory of heads changes, and in a harmless way. -/
theorem of_heads (hs : Shape rtt t) (hnodes : ∀ q, rtt'.nodes.get q = rtt.nodes.get q)
    (hroot : rtt'.rttRoot = rtt.rttRoot) (hk : Keeps rtt.heads rtt'.heads t) : Shape rtt' t where
  holds := hroot ▸ hs.holds.congr fun q _ => hnodes q
  wf := hs.wf.congr (fun _ _ => rfl) hk.key
  linked x hx :=
    ⟨(hs.linked x hx).tbit, fun h0 => (hk x hx h0).2.imp fun _ h => h.1,
      fun h0 => (hk x hx h0).1⟩
  owned p n hp := hs.owned p n (by rwa [hnodes] at hp)

theorem keeps_self (hs : Shape rtt t) : Keeps rtt.heads rtt.heads t := by
  intro x hx h0
  obtain ⟨a, ha⟩ := (hs.linked x hx).addr h0
  exact ⟨(hs.linked x hx).rtn h0, a, ha, key_view_of_addr h0 ha⟩

/-- A head that the table does not hold may be overwritten. -/
theorem keeps_setHead (hs : Shape rtt t) {rth : Ptr} (hd : RtHead)
    (hout : ∀ x ∈ t.pre, x.2.rth = rth → rth = NULL) :
    Keeps rtt.heads (rtt.setHead rth hd).heads t := by
  intro x hx h0
  have hne : x.2.rth ≠ rth := fun heq => h0 (heq ▸ hout x hx heq)
  rw [RtTable.heads_setHead, if_neg hne]
  exact hs.keeps_self x hx h0

/-- No head is at two nodes. -/
theorem rth_inj (hs : Shape rtt t) {x y : Ptr × RtVal} (hx : x ∈ t.pre) (hy : y ∈ t.pre)
    (h0 : x.2.rth ≠ NULL) (heq : x.2.rth = y.2.rth) : x = y := by
  have hptr : x.1 = y.1 := by
    rw [← (hs.linked x hx).rtn h0, heq, (hs.linked y hy).rtn (heq ▸ h0)]
  have hnd := hs.holds.nodup
  rw [← map_fst_pre] at hnd
  exact List.inj_on_of_nodup_map hnd hx hy hptr

/-- A fresh address is that of no node. -/
theorem fresh (hs : Shape rtt t) {p : Ptr} (hp : rtt.nodes.get p = none) : p ∉ t.ptrs :=
  hs.holds.not_mem hp

/-! ## The climb -/

theorem insertClimb_spec (hs : Shape rtt t) {d : Nat} {g : Frame RtVal} {b : List (Frame RtVal)}
    (hg : d ≤ g.val.bit) (hb : ∀ x ∈ b, x.val.bit < d) :
    ∀ (a : List (Frame RtVal)) (f : Frame RtVal) (c : List (Frame RtVal)) (s : Tree RtVal)
      (fuel : Nat), plug (f :: c) s = t → f :: c = a ++ g :: b → (∀ x ∈ a, d ≤ x.val.bit) →
      a.length < fuel →
      RtTable.insertClimb rtt.nodes d fuel f.ptr = .ok (g.ptr, Ctx.top NULL b) := by
  intro a
  induction a with
  | nil =>
    intro f c s fuel heq hsplit _ hfuel
    obtain ⟨fuel, rfl⟩ : ∃ k, fuel = k + 1 := ⟨fuel - 1, by omega⟩
    obtain ⟨rfl, rfl⟩ := List.cons.inj hsplit
    obtain ⟨m, hm, hpar, -⟩ := hs.deref_frame heq
    rw [RtTable.insertClimb, hm, exec_bind_ok, hpar]
    cases c with
    | nil => rfl
    | cons x c =>
      have hne := hs.frame_ne_null heq (List.mem_cons_of_mem f (List.mem_cons_self (a := x)))
      obtain ⟨m', hm', -, hbit, -⟩ := hs.deref_frame (c := c) heq
      have hx := hb x (by simp)
      rw [Ctx.top_cons, if_neg hne, hm', exec_bind_ok, hbit, if_neg (by omega)]
      rfl
  | cons y a ih =>
    intro f c s fuel heq hsplit ha hfuel
    obtain ⟨fuel, rfl⟩ : ∃ k, fuel = k + 1 := ⟨fuel - 1, by simp at hfuel; omega⟩
    obtain ⟨rfl, hc⟩ := List.cons.inj hsplit
    obtain ⟨m, hm, hpar, -⟩ := hs.deref_frame heq
    rw [RtTable.insertClimb, hm, exec_bind_ok, hpar]
    cases c with
    | nil => simp at hc
    | cons x c =>
      have hne := hs.frame_ne_null heq (List.mem_cons_of_mem f (List.mem_cons_self (a := x)))
      obtain ⟨m', hm', -, hbit, -⟩ := hs.deref_frame (c := c) heq
      have hx : d ≤ x.val.bit := by
        cases a with
        | nil =>
          obtain ⟨rfl, -⟩ := List.cons.inj hc
          exact hg
        | cons z a =>
          obtain ⟨rfl, -⟩ := List.cons.inj hc
          exact ha x (by simp)
      rw [Ctx.top_cons, if_neg hne, hm', exec_bind_ok, hbit, if_pos hx]
      exact ih x c _ fuel heq hc (fun z hz => ha z (List.mem_cons_of_mem _ hz))
        (by simpa using hfuel)

end Shape

/-! ## A new node above a subtree -/

/-- The last steps of the insertion put the cell at `pn`, which already has the subtree at `p`
and `o` for children, in the place of `p`. -/
theorem linkAbove_spec {rtt : RtTable} {h : Heap RtNode} {c : List (Frame RtVal)} {p pn : Ptr}
    {v vn : RtVal} {l r o : Tree RtVal} {s : Side} {x : Ptr} (rth : Ptr)
    (ht : Holds h rtt.rttRoot (plug c (.node p v l r))) (hpn : pn ≠ NULL)
    (hout : pn ∉ (plug c (.node p v l r)).ptrs) (ho : Rep rtt.nodes pn o)
    (hond : o.ptrs.Nodup) (hodisj : ∀ q ∈ o.ptrs, q ≠ pn ∧ q ∉ (plug c (.node p v l r)).ptrs)
    (hnew : rtt.nodes.get pn = some (mkSide s p (o.root NULL) x vn))
    (hsame : ∀ q ∈ (plug c (.node p v l r)).ptrs, rtt.nodes.get q = h.get q) :
    ∃ h', RtTable.linkAbove rtt rth p (Ctx.top NULL c) pn =
        .ok (rth, { rtt with
          nodes := h', rttRoot := if c = [] then pn else rtt.rttRoot,
          rttRoutes := rtt.rttRoutes + 1 }) ∧
      Holds h' (if c = [] then pn else rtt.rttRoot)
        (plug c (join s pn { vn with version := v.version } (.node p v l r) o)) ∧
      ∀ q, (h'.get q).isSome → (rtt.nodes.get q).isSome := by
  have hp : p ∈ (plug c (.node p v l r)).ptrs := by
    rw [mem_ptrs_plug]
    simp [ptrs]
  have hpne : pn ≠ p := fun heq => hout (heq ▸ hp)
  obtain ⟨hc, -, hgp, -, -⟩ := (rep_plug h c _).mp ht.rep
  obtain ⟨-, hcnd, hdisj⟩ := (nodup_plug _ _).mp ht.nodup
  have hgetp : rtt.nodes.get p =
      some (NodeLayout.cell (l.root NULL) (r.root NULL) (Ctx.top NULL c) v) := by
    rw [hsame p hp]
    exact hgp
  -- the two cells at the place of the edit
  let h₁ := rtt.nodes.set p (NodeLayout.cell (l.root NULL) (r.root NULL) pn v)
  let h₂ := h₁.set pn (mkSide s p (o.root NULL) (Ctx.top NULL c) { vn with version := v.version })
  have hup₁ : (rtt.nodes.update p fun n => { n with rtnParent := pn }) = .ok h₁ := by
    rw [Heap.update_ok hgetp]
    rfl
  have hup₂ : (h₁.update pn fun m => { m with
      rtnVersion := (NodeLayout.cell (l.root NULL) (r.root NULL) (Ctx.top NULL c) v :
        RtNode).rtnVersion, rtnParent := Ctx.top NULL c }) = .ok h₂ := by
    have hg : h₁.get pn = some (mkSide s p (o.root NULL) x vn) := by
      rw [Heap.get_set_ne _ _ hpne, hnew]
    rw [Heap.update_ok hg]
    cases s <;> rfl
  have hrun : RtTable.linkAbove rtt rth p (Ctx.top NULL c) pn =
      if Ctx.top NULL c = NULL then
        .ok (rth, { rtt with nodes := h₂, rttRoot := pn, rttRoutes := rtt.rttRoutes + 1 })
      else do
        let nodes ← RtTable.replaceChild h₂ .right (Ctx.top NULL c) p pn
        return (rth, { rtt with nodes := nodes, rttRoutes := rtt.rttRoutes + 1 }) := by
    rw [RtTable.linkAbove, Heap.deref_ok hgetp, exec_bind_ok, hup₁, exec_bind_ok, hup₂,
      exec_bind_ok]
    rfl
  have hkeep₂ : ∀ q, q ≠ p → q ≠ pn → h₂.get q = rtt.nodes.get q := fun q hqp hqn => by
    rw [Heap.get_set_ne _ _ hqn, Heap.get_set_ne _ _ hqp]
  have hdom₂ : ∀ q, (h₂.get q).isSome → (rtt.nodes.get q).isSome := fun q hq => by
    by_cases hqn : q = pn
    · simp [hqn, hnew]
    · by_cases hqp : q = p
      · simp [hqp, hgetp]
      · rwa [hkeep₂ q hqp hqn] at hq
  -- outside the three cells nothing changes
  have hout' : ∀ q ∈ o.ptrs, q ≠ p ∧ q ≠ pn ∧ q ∉ Ctx.ptrs c := fun q hq => by
    obtain ⟨hqn, hqt⟩ := hodisj q hq
    rw [mem_ptrs_plug, not_or] at hqt
    exact ⟨fun heq => hqt.1 (by simp [heq, ptrs]), hqn, hqt.2⟩
  cases c with
  | nil =>
    refine ⟨h₂, by rw [hrun]; rfl, ?_, hdom₂⟩
    refine ht.graft hpn hout ?_ hond hodisj ?_ ?_ (by simp) ?_
    · exact (rep_congr fun q hq => hkeep₂ q (hout' q hq).1 (hout' q hq).2.1).mpr ho
    · rw [Heap.get_set_ne _ _ hpne.symm, Heap.get_set_self]
      rfl
    · simp [h₂]
    · intro q hq hqp _
      rw [hkeep₂ q hqp (fun heq => hout (heq ▸ hq)), hsame q hq]
  | cons f c =>
    obtain ⟨hfne, hgf, hsib, -⟩ := hc
    have hft : f.ptr ∈ (plug (f :: c) (.node p v l r)).ptrs := by
      rw [mem_ptrs_plug]
      simp
    have hfp : f.ptr ≠ p := fun heq => hdisj (a := p) (by simp [ptrs]) (by simp [heq])
    have hfpn : f.ptr ≠ pn := fun heq => hout (heq ▸ hft)
    have hgf₂ : h₂.get f.ptr = some (mkSide f.side p (f.sib.root NULL) (Ctx.top NULL c) f.val) := by
      rw [hkeep₂ _ hfp hfpn, hsame _ hft]
      exact hgf
    have hsibp : f.sib.root NULL ≠ p := by
      intro heq
      by_cases hnil : f.sib = .nil
      · rw [hnil] at heq
        exact (ht.live hp).1 heq.symm
      · refine hdisj (a := p) (by simp [ptrs]) ?_
        rw [← heq]
        simp [root_mem_ptrs _ hnil]
    let h₃ := h₂.set f.ptr (mkSide f.side pn (f.sib.root NULL) (Ctx.top NULL c) f.val)
    refine ⟨h₃, ?_, ?_, ?_⟩
    · rw [nul_rtNode] at hfne
      rw [hrun, Ctx.top_cons, if_neg hfne, replaceChild_spec _ hgf₂ hsibp]
      rfl
    · refine ht.graft hpn hout ?_ hond hodisj ?_ ?_ ?_ ?_
      · refine (rep_congr fun q hq => ?_).mpr ho
        obtain ⟨hqp, hqn, hqc⟩ := hout' q hq
        rw [Heap.get_set_ne _ _ (fun heq => hqc (by simp [heq])), hkeep₂ q hqp hqn]
      · rw [Heap.get_set_ne _ _ hfp.symm, Heap.get_set_ne _ _ hpne.symm, Heap.get_set_self]
        rfl
      · rw [Heap.get_set_ne _ _ hfpn.symm, Heap.get_set_self]
        rfl
      · intro f' d heq
        obtain ⟨rfl, rfl⟩ := List.cons.inj heq
        simp [h₃]
      · intro q hq hqp hqf
        rw [Ctx.top_cons] at hqf
        rw [Heap.get_set_ne _ _ hqf, hkeep₂ q hqp (fun heq => hout (heq ▸ hq)), hsame q hq]
    · intro q hq
      by_cases hqf : q = f.ptr
      · rw [hqf, hsame _ hft]
        simp [show h.get f.ptr = _ from hgf]
      · rw [Heap.get_set_ne _ _ hqf] at hq
        exact hdom₂ q hq

/-! ## The steps of the insertion -/

namespace Shape

variable {rtt rtt' : RtTable} {t : Tree RtVal}

variable (rtt') in
/-- A table that holds a tree grown by the node `p` of `rth` has its shape. -/
theorem grown (hs : Shape rtt t) {rth p : Ptr} {addr : Addr} (t' : Tree RtVal)
    (hholds : Holds rtt'.nodes rtt'.rttRoot t') (hwf : Wf (view rtt.heads) [] t')
    (hpre : ∀ x ∈ t'.pre, x.2.tbit = rnbit x.2.bit ∧ (x ∈ t.pre ∧ x.2.rth ≠ rth ∨
      x.2.rth = NULL ∨ x.1 = p ∧ x.2.rth = rth))
    (hheads : ∀ x ∈ t'.pre, x.2.rth ≠ NULL → x.2.rth ≠ rth →
      rtt'.heads x.2.rth = rtt.heads x.2.rth)
    (haddr : (rtt.heads rth).rdxRthAddr = some addr)
    (haddr' : (rtt'.heads rth).rdxRthAddr = some addr) (hrtn : (rtt'.heads rth).rthRtn = p)
    (howned : ∀ q n, rtt'.nodes.get q = some n → q ∈ t'.ptrs) :
    Shape rtt' t' ∧ entries (view rtt'.heads) t' = entries (view rtt.heads) t' := by
  have hkey : ∀ x ∈ t'.pre, (view rtt'.heads).key x.2 = (view rtt.heads).key x.2 := by
    intro x hx
    by_cases h0 : x.2.rth = NULL
    · simp [view, h0]
    · by_cases hr : x.2.rth = rth
      · simp only [view, hr, haddr, haddr']
      · simp only [view, hheads x hx h0 hr]
  refine ⟨⟨hholds, hwf.congr (fun _ _ => rfl) hkey, fun x hx => ?_, howned⟩, entries_congr hkey⟩
  obtain ⟨htbit, ⟨hmem, hne⟩ | h0 | ⟨hxp, hxr⟩⟩ := hpre x hx
  · refine ⟨htbit, fun h0 => ?_, fun h0 => ?_⟩
    · rw [hheads x hx h0 hne]
      exact (hs.linked x hmem).addr h0
    · rw [hheads x hx h0 hne]
      exact (hs.linked x hmem).rtn h0
  · exact ⟨htbit, fun h => absurd h0 h, fun h => absurd h0 h⟩
  · exact ⟨htbit, fun _ => ⟨addr, hxr ▸ haddr'⟩, fun _ => by rw [hxr, hrtn, hxp]⟩

theorem heads_releaseHead {rth q : Ptr} (hne : q ≠ rth) :
    (rtt.releaseHead rth).heads q = rtt.heads q := by
  unfold RtTable.releaseHead
  split
  · rfl
  · dsimp only
    split <;> simp [RtTable.heads_setHead, hne]

theorem releaseHead_same (rtt : RtTable) (rth : Ptr) :
    (rtt.releaseHead rth).nodes = rtt.nodes ∧ (rtt.releaseHead rth).rttRoot = rtt.rttRoot ∧
      Counted rtt (rtt.releaseHead rth) 0 0 := by
  unfold RtTable.releaseHead
  split
  · exact ⟨rfl, rfl, rfl, rfl, rfl, rfl, rfl, rfl, rfl, rfl, rfl⟩
  · dsimp only
    split <;> exact ⟨rfl, rfl, rfl, rfl, rfl, rfl, rfl, rfl, rfl, rfl, rfl⟩

/-- The node of the key is there. -/
theorem fillNode_spec (hs : Shape rtt t) {A : Malloc RtNode} {rth : Ptr} {addr : Addr}
    {c : List (Frame RtVal)} {p : Ptr} {v : RtVal} {l r : Tree RtVal} {k : List Bool}
    (heq : plug c (.node p v l r) = t) (h0 : rth ≠ NULL)
    (haddr : (rtt.heads rth).rdxRthAddr = some addr)
    (hctx : CtxWf (view rtt.heads) k c) (hk : k <+: firstBits (bitAt addr) v.bit)
    (hwf : Wf (view rtt.heads) (firstBits (bitAt addr) v.bit) (.node p v l r))
    (hown : ∀ x ∈ t.pre, x.2.rth = rth →
      x = (p, v) ∧ rdxTestBit v.flags RDX_RN_DELE_BIT = false) :
    InsertOutcome rtt t A rth (firstBits (bitAt addr) v.bit) v.bit
      (RtTable.fillNode rtt rth p) := by
  have hget := hs.get_node heq
  have hmem : (p, v) ∈ t.pre := by
    rw [← heq, mem_pre_plug]
    simp [pre]
  have hlinked := hs.linked _ hmem
  have hkey : v.rth ≠ NULL → ((firstBits (bitAt addr) v.bit, p, v) : List Bool × Ptr × RtVal) ∈
      entries (view rtt.heads) t := by
    intro hv
    obtain ⟨a, ha⟩ := hlinked.addr hv
    obtain ⟨key, h1, h2, h3, -, -, -⟩ := wf_node.mp hwf
    have hkv := key_view_of_addr hv ha
    have heqk : firstBits (bitAt addr) v.bit = firstBits (bitAt a) v.bit :=
      (h1.eq_of_length (by rw [length_firstBits, h2]; rfl)).trans (h3 _ hkv).symm
    exact mem_entries.mpr ⟨hmem, heqk ▸ hkv⟩
  rw [RtTable.fillNode, Heap.deref_ok hget, exec_bind_ok]
  by_cases hlive : rdxTestBit v.flags RDX_RN_DELE_BIT = false ∧ v.rth ≠ NULL
  · rw [if_pos (by simp [RtNode.marked, cell_rtNode, hlive.1, hlive.2])]
    exact .present (hkey hlive.2) hlive.1 hs rfl ⟨rfl, rfl, rfl, rfl, rfl, rfl, rfl, rfl, rfl⟩
  rw [if_neg (by simpa [RtNode.marked, cell_rtNode] using hlive)]
  -- the head goes into the node, and the one before it is released
  have hfree : ∀ x ∈ t.pre, x.2.rth ≠ rth := by
    intro x hx hxr
    obtain ⟨rfl, hm⟩ := hown x hx hxr
    exact hlive ⟨hm, hxr ▸ h0⟩
  let v' : RtVal := { v with rth := rth, flags := rdxClearBit v.flags RDX_RN_DELE_BIT }
  let h' := rtt.nodes.set p
    (NodeLayout.cell (l.root NULL) (r.root NULL) (Ctx.top NULL c) v')
  let rtt₁ := rtt.releaseHead v.rth
  obtain ⟨hnodes₁, hroot₁, hcount₁⟩ := releaseHead_same rtt v.rth
  let rtt₂ : RtTable := { rtt₁.setRtn rth p with nodes := h', rttRoutes := rtt₁.rttRoutes + 1 }
  have hrun : (do
      let nodes ← (rtt.releaseHead v.rth).nodes.update p fun n =>
        { n with rtnRth := rth, rtnFlags := rdxClearBit n.rtnFlags RDX_RN_DELE_BIT }
      return (rth, { (rtt.releaseHead v.rth).setRtn rth p with
        nodes := nodes, rttRoutes := (rtt.releaseHead v.rth).rttRoutes + 1 }) :
        Exec (Ptr × RtTable)) = .ok (rth, rtt₂) := by
    rw [hnodes₁, Heap.update_ok hget]
    rfl
  have hcell : (NodeLayout.cell (l.root NULL) (r.root NULL) (Ctx.top NULL c) v :
      RtNode).rtnRth = v.rth := rfl
  rw [hcell, hrun]
  have hheads : ∀ q, q ≠ v.rth → q ≠ rth → rtt₂.heads q = rtt.heads q := by
    intro q hq hqr
    have : rtt₂.heads q = rtt₁.heads q := by
      show (rtt₁.setRtn rth p).heads q = _
      simp [RtTable.setRtn, RtTable.heads_setHead, hqr]
    rw [this, heads_releaseHead hq]
  have hvr : rth ≠ v.rth := fun heq' => hfree (p, v) hmem heq'.symm
  have haddr₂ : (rtt₂.heads rth).rdxRthAddr = some addr := by
    have : rtt₂.heads rth = { rtt₁.heads rth with rthRtn := p } := by
      show (rtt₁.setRtn rth p).heads rth = _
      simp [RtTable.setRtn, RtTable.heads_setHead]
    rw [this, heads_releaseHead hvr]
    exact haddr
  have hrtn₂ : (rtt₂.heads rth).rthRtn = p := by
    show ((rtt₁.setRtn rth p).heads rth).rthRtn = p
    simp [RtTable.setRtn, RtTable.heads_setHead]
  have hK : (view rtt.heads).key v' = some (firstBits (bitAt addr) v.bit) :=
    key_view_of_addr h0 haddr
  have hothers : ∀ x ∈ (plug c (node p v' l r)).pre, x = (p, v') ∨ x ∈ t.pre ∧ x.1 ≠ p := by
    intro x hx
    have hnd := hs.holds.nodup
    rw [← heq] at hnd ⊢
    exact mem_pre_of_setVal hnd hx
  have hnotold : ∀ x ∈ t.pre, x.1 ≠ p → x.2.rth ≠ NULL → x.2.rth ≠ v.rth := by
    intro x hx hxp hx0 hxv
    exact hxp (congrArg Prod.fst (hs.rth_inj hx hmem hx0 hxv))
  have hholds : Holds rtt₂.nodes rtt₂.rttRoot (plug c (node p v' l r)) := by
    have hroot₂ : rtt₂.rttRoot = rtt.rttRoot := hroot₁
    rw [hroot₂]
    exact Holds.setVal (heq.symm ▸ hs.holds) v'
  have hgrown := hs.grown _ _ (p := p) hholds
    (hctx.fill hk hwf (by simp) rfl hK) ?_ ?_ haddr haddr₂ hrtn₂ ?_
  · obtain ⟨hshape, hents⟩ := hgrown
    have hcount : Counted rtt rtt₂ 0 1 :=
      ⟨hcount₁.inodes, hcount₁.alloc, congrArg (· + 1) hcount₁.routes, hcount₁.config⟩
    by_cases hv : v.rth = NULL
    · refine .added (p := p) (v := v') (heq ▸ Grown.fill hv) hshape rfl ?_ ?_
      · rw [hents, ← heq]
        refine entries_plug_perm [(_, p, v')] ?_
        have hnone : (view rtt.heads).key v = none := by simp [view, hv]
        simp [entries_node, hK, hnone]
      · rwa [← heq, size_plug, size_plug, size, size, Nat.sub_self]
    · have hm : rdxTestBit v.flags RDX_RN_DELE_BIT = true := by
        by_contra hm
        exact hlive ⟨by simpa using hm, hv⟩
      exact .replaced heq.symm (hkey hv) hm hshape hcount
  · intro x hx
    rcases hothers x hx with rfl | ⟨hx, -⟩
    · exact ⟨hlinked.tbit, .inr (.inr ⟨rfl, rfl⟩)⟩
    · exact ⟨(hs.linked x hx).tbit, .inl ⟨hx, hfree x hx⟩⟩
  · intro x hx hx0 hxr
    rcases hothers x hx with rfl | ⟨hx, hxp⟩
    · exact absurd rfl hxr
    · exact hheads _ (hnotold x hx hxp hx0) hxr
  · intro q n hq
    have hq' : q ∈ t.ptrs := by
      by_cases hqp : q = p
      · rw [hqp, ← map_fst_pre]
        exact List.mem_map_of_mem (f := Prod.fst) hmem
      · exact hs.owned q n (by rwa [Heap.get_set_ne _ _ hqp] at hq)
    rw [← heq, mem_ptrs_plug] at hq'
    rwa [mem_ptrs_plug]

/-- A new node below a node that has no child on the side of the key. -/
theorem attachBelow_spec (rtt : RtTable) {h : Heap RtNode} {f : Frame RtVal}
    {c : List (Frame RtVal)} {pa rth : Ptr} {n d : Nat} {addr : Addr}
    (ht : Holds h rtt.rttRoot (plug (f :: c) .nil)) (hpa : pa ≠ NULL) (hfree : h.get pa = none)
    (hnodes : rtt.nodes = h.set pa (NodeLayout.cell NULL NULL NULL (newVal n rth 0)))
    (htbit : f.val.tbit = rnbit f.val.bit) (hside : f.side.bit = bitAt addr f.val.bit)
    (hd : d < n) :
    ∃ h', RtTable.attachBelow rtt addr rth f.ptr pa n d =
        .ok (rth, { rtt with nodes := h', rttRoutes := rtt.rttRoutes + 1 }) ∧
      Holds h' rtt.rttRoot (plug (f :: c) (.node pa (newVal n rth 0) .nil .nil)) ∧
      ∀ q, (h'.get q).isSome → q = pa ∨ (h.get q).isSome := by
  have hft : f.ptr ∈ (plug (f :: c) (.nil : Tree RtVal)).ptrs := by
    rw [mem_ptrs_plug]
    simp
  have hne : f.ptr ≠ pa := fun heq => ht.not_mem hfree (heq ▸ hft)
  have hgf : h.get f.ptr = some (mkSide f.side NULL (f.sib.root NULL) (Ctx.top NULL c) f.val) := by
    have := ((rep_plug h (f :: c) .nil).mp ht.rep).1
    exact this.2.1
  let h₁ := rtt.nodes.set pa (NodeLayout.cell NULL NULL f.ptr (newVal n rth 0))
  have hgf₁ : h₁.get f.ptr =
      some (mkSide f.side NULL (f.sib.root NULL) (Ctx.top NULL c) f.val) := by
    rw [Heap.get_set_ne _ _ hne, hnodes, Heap.get_set_ne _ _ hne, hgf]
  have hup₁ : (rtt.nodes.update pa fun n => { n with rtnParent := f.ptr }) = .ok h₁ := by
    rw [Heap.update_ok (by rw [hnodes, Heap.get_set_self])]
    rfl
  let h₂ := h₁.set f.ptr (mkSide f.side pa (f.sib.root NULL) (Ctx.top NULL c) f.val)
  have hget₂ : ∀ q, h₂.get q = ((h.set pa (NodeLayout.cell NULL NULL f.ptr (newVal n rth 0))).set
      f.ptr (mkSide f.side pa (f.sib.root NULL) (Ctx.top NULL c) f.val)).get q := by
    intro q
    simp only [h₂, h₁, hnodes, Heap.get_set]
    split
    · rfl
    · split <;> rfl
  refine ⟨h₂, ?_, (ht.attach hpa hfree _).congr fun q _ => hget₂ q, fun q hq => ?_⟩
  · rw [RtTable.attachBelow]
    simp only [hd, decide_true, assertThat_true, exec_bind_ok, hup₁, Heap.deref_ok hgf₁]
    have hbit : ∀ near far par, bitTest (addr (rnbyte (mkSide f.side near far par f.val :
        RtNode).rtnBit)) (mkSide f.side near far par f.val : RtNode).rtnTbit = f.side.bit := by
      intro near far par
      rw [hside, ← bitTest_rnbit]
      cases f.side <;> simp [mkSide, cell_rtNode, htbit]
    rw [hbit]
    cases hs : f.side <;> simp [mkSide, cell_rtNode, Heap.update_ok hgf₁, hs, h₂]
  · rw [hget₂] at hq
    by_cases hqf : q = f.ptr
    · exact .inr (by simp [hqf, hgf])
    · rw [Heap.get_set_ne _ _ hqf] at hq
      by_cases hqp : q = pa
      · exact .inl hqp
      · exact .inr (by rwa [Heap.get_set_ne _ _ hqp] at hq)

/-- The table after the node for `rth` was allocated at `pa`. -/
def withNode (rtt : RtTable) (rth pa : Ptr) (n : Nat) : RtTable :=
  { rtt.setRtn rth pa with
    nodes := rtt.nodes.set pa (NodeLayout.cell NULL NULL NULL (newVal n rth 0))
    rttInodes := rtt.rttInodes + 1
    rttNmalloc := rtt.rttNmalloc + 1 }

theorem get_withNode (rtt : RtTable) (rth pa : Ptr) (n : Nat) :
    (withNode rtt rth pa n).nodes.get pa =
      some (NodeLayout.cell NULL NULL NULL (newVal n rth 0)) := Heap.get_set_self _ _ _

theorem get_withNode_ne (rtt : RtTable) {rth pa q : Ptr} {n : Nat} (hne : q ≠ pa) :
    (withNode rtt rth pa n).nodes.get q = rtt.nodes.get q := Heap.get_set_ne _ _ hne

theorem heads_setRtn (rtt : RtTable) (rth pa : Ptr) :
    ((rtt.setRtn rth pa).heads rth).rthRtn = pa ∧
      ((rtt.setRtn rth pa).heads rth).rdxRthAddr = (rtt.heads rth).rdxRthAddr ∧
      ∀ q, q ≠ rth → (rtt.setRtn rth pa).heads q = rtt.heads q := by
  simp +contextual [RtTable.setRtn, RtTable.heads_setHead]

/-- The new node becomes a leaf below the landing node. -/
theorem attach_outcome (hs : Shape rtt t) {A : Malloc RtNode} {rth pa : Ptr} {addr : Addr}
    {f : Frame RtVal} {c : List (Frame RtVal)} {k key : List Bool} {n : Nat}
    (heq : plug (f :: c) .nil = t) (h0 : rth ≠ NULL)
    (haddr : (rtt.heads rth).rdxRthAddr = some addr) (hout : ∀ x ∈ t.pre, x.2.rth ≠ rth)
    (hpa : pa ≠ NULL) (hfree : rtt.nodes.get pa = none)
    (hctx : CtxWf (view rtt.heads) k c) (hk : k <+: key)
    (hwf : Wf (view rtt.heads) key (join f.side f.ptr f.val .nil f.sib))
    (hkey : key = firstBits (bitAt addr) f.val.bit) (hside : f.side.bit = bitAt addr f.val.bit)
    (hd : f.val.bit < n) :
    InsertOutcome rtt t A rth (firstBits (bitAt addr) n) n
      (RtTable.attachBelow (withNode rtt rth pa n) addr rth f.ptr pa n f.val.bit) := by
  obtain ⟨h', hrun, hholds, hdom⟩ := attachBelow_spec (withNode rtt rth pa n)
    (h := rtt.nodes) (f := f) (c := c) (d := f.val.bit) (n := n)
    (heq.symm ▸ hs.holds) hpa hfree rfl
    (hs.linked_frame heq List.mem_cons_self).tbit hside hd
  obtain ⟨hrtn, hrdx, hsame⟩ := heads_setRtn rtt rth pa
  have hK : (view rtt.heads).key (newVal n rth 0) = some (firstBits (bitAt addr) n) :=
    key_view_of_addr h0 haddr
  -- the leaf's key goes on from the string of the landing node to its own side
  have hwf' : Wf (view rtt.heads) [] (plug (f :: c) (.node pa (newVal n rth 0) .nil .nil)) := by
    obtain ⟨key', h1, h2, h3, -, -, h6⟩ := wf_join.mp hwf
    obtain rfl : key = key' := h1.eq_of_length (by rw [h2, hkey, length_firstBits]; rfl)
    refine hctx.plug (wf_join.mpr ⟨key, hk, h2, h3, fun hnone => ?_, ?_, h6⟩)
      (join_ne_nil _ _ _ _ _)
    · obtain ⟨_, -, -, -, h4, -, -⟩ := wf_join.mp hwf
      exact absurd rfl (h4 hnone).1
    · refine Wf.leaf ?_ (by simp [newVal]) hK
      rw [hkey, hside, ← firstBits_succ]
      exact firstBits_isPrefix _ hd
  have hpre : ∀ x ∈ (plug (f :: c) (.node pa (newVal n rth 0) .nil .nil)).pre,
      x ∈ t.pre ∨ x = (pa, newVal n rth 0) := by
    rw [← heq]
    exact forall_pre_plug (t := .nil) (fun x hx => .inl hx) (by simp [pre])
  have hgrown := hs.grown ({ withNode rtt rth pa n with
      nodes := h', rttRoutes := (withNode rtt rth pa n).rttRoutes + 1 }) _ (p := pa)
    hholds hwf' ?_ ?_ haddr (hrdx.trans haddr) hrtn ?_
  · obtain ⟨hshape, hents⟩ := hgrown
    rw [hrun]
    refine .added (heq ▸ Grown.attach) hshape (p := pa) (v := newVal n rth 0) rfl ?_ ?_
    · rw [hents, ← heq]
      refine entries_plug_perm [(_, pa, newVal n rth 0)] ?_
      simp [entries_node, hK]
    · have hsize : (plug (f :: c) (.node pa (newVal n rth 0) .nil .nil)).size - t.size = 1 := by
        rw [← heq, size_plug, size_plug]
        simp only [size]
        omega
      rw [hsize]
      have halloc : rtt.rttNmalloc + 1 + rtt.rttNfree = rtt.rttNmalloc + rtt.rttNfree + 1 := by
        omega
      exact ⟨rfl, halloc, rfl, rfl, rfl, rfl, rfl, rfl, rfl⟩
  · intro x hx
    rcases hpre x hx with hx | rfl
    · exact ⟨(hs.linked x hx).tbit, .inl ⟨hx, hout x hx⟩⟩
    · exact ⟨rfl, .inr (.inr ⟨rfl, rfl⟩)⟩
  · exact fun x _ _ hxr => hsame _ hxr
  · intro q m hq
    rcases hdom q (by simp [show h'.get q = some m from hq]) with rfl | hq
    · rw [mem_ptrs_plug]
      simp [ptrs]
    · obtain ⟨m', hm'⟩ := Option.isSome_iff_exists.mp hq
      have := hs.owned q m' hm'
      rw [← heq, mem_ptrs_plug] at this
      rw [mem_ptrs_plug]
      exact .inr (this.resolve_left (by simp))

/-- A new node, alone or with the node of `rth` on its other side, is put above a subtree; `rtt₁`
is the table in which the new cells have been made. -/
theorem graft_outcome (hs : Shape rtt t) {A : Malloc RtNode} {rtt₁ : RtTable} {rth pa pn p : Ptr}
    {addr : Addr} {c : List (Frame RtVal)} {v : RtVal} (vn va : RtVal) {l r o : Tree RtVal}
      {s : Side}
    {x : Ptr} {n : Nat} (heq : plug c (.node p v l r) = t)
    (haddr : (rtt.heads rth).rdxRthAddr = some addr) (hout : ∀ x ∈ t.pre, x.2.rth ≠ rth)
    (hroot₁ : rtt₁.rttRoot = rtt.rttRoot) (hheads₁ : rtt₁.heads = (rtt.setRtn rth pa).heads)
    (hcount : Counted rtt rtt₁ (o.size + 1) 0) (hpn : pn ≠ NULL) (hpnt : pn ∉ t.ptrs)
    (ho : Rep rtt₁.nodes pn o) (hond : o.ptrs.Nodup) (hodisj : ∀ q ∈ o.ptrs, q ≠ pn ∧ q ∉ t.ptrs)
    (hnew : rtt₁.nodes.get pn = some (mkSide s p (o.root NULL) x vn))
    (hsame : ∀ q ∈ t.ptrs, rtt₁.nodes.get q = rtt.nodes.get q)
    (hdom : ∀ q, (rtt₁.nodes.get q).isSome → q = pn ∨ q ∈ o.ptrs ∨ (rtt.nodes.get q).isSome)
    (hgrown : Grown n rth t
      (plug c (join s pn { vn with version := v.version } (.node p v l r) o)))
    (hwf : Wf (view rtt.heads) []
      (plug c (join s pn { vn with version := v.version } (.node p v l r) o)))
    (hnewpre : ∀ y ∈ (pn, { vn with version := v.version }) :: o.pre,
      y.2.tbit = rnbit y.2.bit ∧ (y.2.rth = NULL ∨ y.1 = pa ∧ y.2.rth = rth))
    (hva : va.rth = rth)
    (hperm : (entries (view rtt.heads)
      (join s pn { vn with version := v.version } (.node p v l r) o)).Perm
        ([(firstBits (bitAt addr) n, pa, va)] ++ entries (view rtt.heads) (.node p v l r))) :
    InsertOutcome rtt t A rth (firstBits (bitAt addr) n) n
      (RtTable.linkAbove rtt₁ rth p (Ctx.top NULL c) pn) := by
  obtain ⟨h', hrun, hholds, hdom'⟩ := linkAbove_spec (h := rtt.nodes) (v := v)
    (l := l) (r := r) rth (by rw [hroot₁, heq]; exact hs.holds) hpn (heq ▸ hpnt) ho hond
    (heq ▸ hodisj) hnew (heq ▸ hsame)
  obtain ⟨hrtn, hrdx, hother⟩ := heads_setRtn rtt rth pa
  rw [hrun]
  have hpre : ∀ y ∈ (plug c (join s pn { vn with version := v.version } (.node p v l r) o)).pre,
      y ∈ t.pre ∨ y ∈ (pn, { vn with version := v.version }) :: o.pre := by
    have hin : ∀ y ∈ (node p v l r).pre, y ∈ t.pre := fun y hy => by
      rw [← heq, mem_pre_plug]
      exact .inl hy
    refine forall_pre_plug (t := .node p v l r) (fun y hy => .inl (heq ▸ hy)) fun y hy => ?_
    rcases (mem_pre_join ..).mp hy with rfl | hy | hy
    · exact .inr (by simp)
    · exact .inl (hin y hy)
    · exact .inr (by simp [hy])
  have hgr := hs.grown ({ rtt₁ with
      nodes := h', rttRoot := if c = [] then pn else rtt₁.rttRoot,
      rttRoutes := rtt₁.rttRoutes + 1 }) _ (p := pa)
    hholds hwf ?_ ?_ haddr (by rw [← haddr, ← hrdx, hheads₁]) (by rw [← hrtn, hheads₁]) ?_
  · obtain ⟨hshape, hents⟩ := hgr
    refine .added hgrown hshape (p := pa) (v := va) hva ?_ ?_
    · rw [hents, ← heq]
      exact entries_plug_perm _ hperm
    · have hsize : (plug c (join s pn { vn with version := v.version } (.node p v l r) o)).size -
          t.size = o.size + 1 := by
        rw [← heq, size_plug, size_plug, size_join]
        omega
      rw [hsize]
      exact ⟨hcount.inodes, hcount.alloc, congrArg (· + 1) hcount.routes, hcount.config⟩
  · intro y hy
    rcases hpre y hy with hy | hy
    · exact ⟨(hs.linked y hy).tbit, .inl ⟨hy, hout y hy⟩⟩
    · exact ⟨(hnewpre y hy).1, .inr (hnewpre y hy).2⟩
  · intro y _ _ hyr
    show rtt₁.heads _ = _
    rw [hheads₁, hother _ hyr]
  · intro q m hq
    rw [mem_ptrs_plug, mem_ptrs_join]
    rcases hdom q (hdom' q (by simp [show h'.get q = some m from hq])) with rfl | hq | hq
    · exact .inl (.inl rfl)
    · exact .inl (.inr (.inr hq))
    · obtain ⟨m', hm'⟩ := Option.isSome_iff_exists.mp hq
      have := hs.owned q m' hm'
      rw [← heq, mem_ptrs_plug] at this
      exact this.imp (fun h => .inr (.inl h)) id

/-- The loop condition of the descent as a condition on payloads. -/
def passes (n : Nat) (v : RtVal) : Bool := decide (v.bit < n) || decide (v.rth = NULL)

/-- The new node becomes the parent of the cut: its key is a prefix of all that is below. -/
theorem above_outcome (hs : Shape rtt t) {A : Malloc RtNode} {rth pa : Ptr} {addr his : Addr}
    {f g : Frame RtVal} {a b c : List (Frame RtVal)} {near : Tree RtVal} {k : List Bool} {n : Nat}
    (hcut : Cut (view rtt.heads) (bitAt addr) (bitAt his) n (f :: c) near a g b k)
    (heq : plug b (join g.side g.ptr g.val (plug a near) g.sib) = t) (hn : n < g.val.bit)
    (h0 : rth ≠ NULL) (haddr : (rtt.heads rth).rdxRthAddr = some addr)
    (hout : ∀ x ∈ t.pre, x.2.rth ≠ rth) (hpa : pa ≠ NULL) (hfree : rtt.nodes.get pa = none) :
    InsertOutcome rtt t A rth (firstBits (bitAt addr) n) n (do
      let nodes ← (withNode rtt rth pa n).nodes.update pa fun m =>
        if bitTest (his (rnbyte n)) (rnbit n) then { m with rtnRight := g.ptr }
        else { m with rtnLeft := g.ptr }
      RtTable.linkAbove { withNode rtt rth pa n with nodes := nodes } rth g.ptr
        (Ctx.top NULL b) pa) := by
  obtain ⟨l, r, hS⟩ := exists_join_eq g.side g.ptr g.val (plug a near) g.sib
  have hwf := hcut.wf
  rw [hS] at heq hwf
  obtain ⟨s, hs'⟩ := Side.exists_bit (bitAt his n)
  have hpat : pa ∉ t.ptrs := hs.fresh hfree
  let h₁ := (withNode rtt rth pa n).nodes.set pa (mkSide s g.ptr NULL NULL (newVal n rth 0))
  have hup : ((withNode rtt rth pa n).nodes.update pa fun m =>
      if bitTest (his (rnbyte n)) (rnbit n) then { m with rtnRight := g.ptr }
      else { m with rtnLeft := g.ptr }) = .ok h₁ := by
    rw [Heap.update_ok (get_withNode rtt rth pa n), bitTest_rnbit, ← hs']
    cases s <;> rfl
  rw [hup, exec_bind_ok]
  have hK : (view rtt.heads).key (newVal n rth g.val.version) =
      some (firstBits (bitAt addr) n) := key_view_of_addr h0 haddr
  have hX : firstBits (bitAt addr) n = firstBits (bitAt his) n := by
    have := eq_firstBits_of_isPrefix hcut.shared
    rwa [length_firstBits] at this
  refine hs.graft_outcome _ (newVal n rth g.val.version) (o := .nil) (s := s) (x := NULL) heq
    haddr hout rfl rfl ⟨rfl, ?_, rfl, rfl, rfl, rfl, rfl, rfl, rfl⟩ hpa hpat trivial (by simp)
    (by simp) (Heap.get_set_self _ _ _) ?_ ?_ (heq ▸ Grown.above) ?_ ?_ rfl ?_
  · show rtt.rttNmalloc + 1 + rtt.rttNfree = rtt.rttNmalloc + rtt.rttNfree + 1
    omega
  · intro q hq
    have hne : q ≠ pa := fun he => hpat (he ▸ hq)
    rw [Heap.get_set_ne _ _ hne, get_withNode_ne rtt hne]
  · intro q hq
    by_cases hne : q = pa
    · exact .inl hne
    · rw [Heap.get_set_ne _ _ hne, get_withNode_ne rtt hne] at hq
      exact .inr (.inr hq)
  · refine hcut.ctx.graft hcut.hole (by simp [newVal]) (fun e he => ?_) (fun hnone => ?_)
      (hwf.weaken ?_) (by simp) .nil
    · exact Option.some_inj.mp (he.symm.trans hK)
    · exact absurd (hnone.symm.trans hK) (by simp)
    · rw [hs', hX, ← firstBits_succ]
      exact firstBits_isPrefix _ hn
  · intro y hy
    simp only [pre, List.mem_singleton] at hy
    subst hy
    exact ⟨rfl, .inr ⟨rfl, rfl⟩⟩
  · refine (entries_join_perm _ _ _ _ _).trans ?_
    have hK' : (view rtt.heads).key { newVal n rth 0 with version := g.val.version } =
        some (firstBits (bitAt addr) n) := hK
    rw [hK']
    simp [newVal]

/-- The new node and the cut go under a new node for the bits they share. -/
theorem beside_outcome (hs : Shape rtt t) {A : Malloc RtNode} {rth pa : Ptr} {addr his : Addr}
    {f g : Frame RtVal} {a b c : List (Frame RtVal)} {near : Tree RtVal} {k : List Bool}
    {n d : Nat} (hcut : Cut (view rtt.heads) (bitAt addr) (bitAt his) d (f :: c) near a g b k)
    (heq : plug b (join g.side g.ptr g.val (plug a near) g.sib) = t) (hd : d < g.val.bit)
    (hdn : d < n) (hdiff : bitAt addr d ≠ bitAt his d)
    (h0 : rth ≠ NULL) (haddr : (rtt.heads rth).rdxRthAddr = some addr)
    (hout : ∀ x ∈ t.pre, x.2.rth ≠ rth) (hpa : pa ≠ NULL) (hfree : rtt.nodes.get pa = none) :
    InsertOutcome rtt t A rth (firstBits (bitAt addr) n) n
      (RtTable.insertGlue (withNode rtt rth pa n) A addr rth g.ptr (Ctx.top NULL b) pa d) := by
  obtain ⟨l, r, hS⟩ := exists_join_eq g.side g.ptr g.val (plug a near) g.sib
  have hwf := hcut.wf
  rw [hS] at heq hwf
  obtain ⟨s, hs'⟩ := Side.exists_bit (bitAt his d)
  have hpat : pa ∉ t.ptrs := hs.fresh hfree
  have hglue : (if bitTest (addr (rnbyte d)) (rnbit d) then
        { RtNode.new d with rtnRight := pa, rtnLeft := g.ptr }
      else { RtNode.new d with rtnLeft := pa, rtnRight := g.ptr }) =
      (mkSide s g.ptr pa NULL (newVal d NULL 0) : RtNode) := by
    have haddrbit : bitAt addr d = !s.bit := by
      rw [hs']
      cases h1 : bitAt addr d <;> cases h2 : bitAt his d <;> simp_all
    rw [bitTest_rnbit, haddrbit]
    cases s <;> rfl
  rw [RtTable.insertGlue, hglue, RtTable.newNode]
  cases hA : A.next (withNode rtt rth pa n).nodes with
  | none =>
    -- the first node is given back
    obtain ⟨hrtn, hrdx, hother⟩ := heads_setRtn rtt rth pa
    have hkeep : Keeps rtt.heads ((withNode rtt rth pa n).freeNode pa).heads t :=
      hs.keeps_setHead _ fun x hx hxr => absurd hxr (hout x hx)
    refine .noMemory hA
      (hs.of_heads (fun q => ?_) rfl hkeep) hkeep.entries
      ⟨?_, ?_, rfl, rfl, rfl, rfl, rfl, rfl, rfl⟩
    · by_cases hq : q = pa
      · rw [hq, hfree]
        exact Heap.get_erase_self _ _
      · exact (Heap.get_erase_ne _ hq).trans (get_withNode_ne rtt hq)
    · show ulongPred (rtt.rttInodes + 1) = rtt.rttInodes
      simp [ulongPred]
    · show rtt.rttNmalloc + 1 + rtt.rttNfree = rtt.rttNmalloc + (rtt.rttNfree + 1)
      omega
  | some pg =>
    obtain ⟨hpgfree, hpg⟩ := A.fresh _ _ hA
    have hpga : pg ≠ pa := by
      rintro rfl
      rw [get_withNode] at hpgfree
      cases hpgfree
    have hpgt : pg ∉ t.ptrs := hs.fresh (by rwa [get_withNode_ne rtt hpga] at hpgfree)
    let h₂ := (withNode rtt rth pa n).nodes.set pg (mkSide s g.ptr pa NULL (newVal d NULL 0))
    let h₃ := h₂.set pa (NodeLayout.cell NULL NULL pg (newVal n rth 0))
    have hup : (h₂.update pa fun m => { m with rtnParent := pg }) = .ok h₃ := by
      rw [Heap.update_ok ((Heap.get_set_ne _ _ hpga.symm).trans (get_withNode rtt rth pa n))]
      rfl
    have hrun : (if pg = NULL then Except.ok (NULL, { withNode rtt rth pa n with
            nodes := h₂
            rttInodes := (withNode rtt rth pa n).rttInodes + 1
            rttNmalloc := (withNode rtt rth pa n).rttNmalloc + 1 }.freeNode pa)
          else do
            let nodes ← h₂.update pa fun m => { m with rtnParent := pg }
            RtTable.linkAbove { withNode rtt rth pa n with
              nodes := nodes
              rttInodes := (withNode rtt rth pa n).rttInodes + 1
              rttNmalloc := (withNode rtt rth pa n).rttNmalloc + 1 } rth g.ptr
                (Ctx.top NULL b) pg : Exec (Ptr × RtTable)) =
        RtTable.linkAbove { withNode rtt rth pa n with
          nodes := h₃
          rttInodes := (withNode rtt rth pa n).rttInodes + 1
          rttNmalloc := (withNode rtt rth pa n).rttNmalloc + 1 } rth g.ptr (Ctx.top NULL b) pg := by
      rw [if_neg hpg, hup, exec_bind_ok]
    refine (congrArg (InsertOutcome rtt t A rth (firstBits (bitAt addr) n) n) hrun).mpr ?_
    have hK : (view rtt.heads).key (newVal n rth 0) = some (firstBits (bitAt addr) n) :=
      key_view_of_addr h0 haddr
    have hX : firstBits (bitAt addr) d = firstBits (bitAt his) d := by
      have := eq_firstBits_of_isPrefix hcut.shared
      rwa [length_firstBits] at this
    have hbit : (!s.bit) = bitAt addr d := by
      rw [hs']
      cases h1 : bitAt addr d <;> cases h2 : bitAt his d <;> simp_all
    refine hs.graft_outcome (newVal d NULL 0) (newVal n rth 0)
      (o := .node pa (newVal n rth 0) .nil .nil) (s := s) (x := NULL) heq haddr hout rfl rfl
      ⟨rfl, ?_, rfl, rfl, rfl, rfl, rfl, rfl, rfl⟩ hpg hpgt ?_ (by simp [ptrs]) ?_ ?_ ?_ ?_
      (heq ▸ Grown.beside hdn) ?_ ?_ rfl ?_
    · show rtt.rttNmalloc + 1 + 1 + rtt.rttNfree = rtt.rttNmalloc + rtt.rttNfree + (0 + 0 + 1 + 1)
      omega
    · exact ⟨hpa, Heap.get_set_self _ _ _, trivial, trivial⟩
    · intro q hq
      simp only [ptrs, List.append_nil, List.mem_singleton] at hq
      subst hq
      exact ⟨hpga.symm, hpat⟩
    · show h₃.get pg = _
      rw [Heap.get_set_ne _ _ hpga, Heap.get_set_self]
      rfl
    · intro q hq
      have hne : q ≠ pa := fun he => hpat (he ▸ hq)
      have hne' : q ≠ pg := fun he => hpgt (he ▸ hq)
      show h₃.get q = _
      rw [Heap.get_set_ne _ _ hne, Heap.get_set_ne _ _ hne', get_withNode_ne rtt hne]
    · intro q hq
      by_cases hne : q = pa
      · exact .inr (.inl (by simp [hne, ptrs]))
      · by_cases hne' : q = pg
        · exact .inl hne'
        · refine .inr (.inr ?_)
          have hget : h₃.get q = rtt.nodes.get q := by
            rw [Heap.get_set_ne _ _ hne, Heap.get_set_ne _ _ hne', get_withNode_ne rtt hne]
          rw [← hget]
          exact hq
    · refine hcut.ctx.graft hcut.hole (by simp [newVal]) (fun e he => ?_) (fun _ => by simp)
        (hwf.weaken ?_) (by simp) (Wf.leaf ?_ (by simp [newVal]) hK)
      · simp [view, newVal] at he
      · rw [hs', hX, ← firstBits_succ]
        exact firstBits_isPrefix _ hd
      · rw [hbit, ← firstBits_succ]
        exact firstBits_isPrefix _ hdn
    · intro y hy
      simp only [pre, List.append_nil, List.mem_cons, List.not_mem_nil, or_false] at hy
      rcases hy with rfl | rfl
      · exact ⟨rfl, .inl rfl⟩
      · exact ⟨rfl, .inr ⟨rfl, rfl⟩⟩
    · refine (entries_join_perm _ _ _ _ _).trans ?_
      have hnone : (view rtt.heads).key { newVal d NULL 0 with version := g.val.version } = none := by
        simp [view, newVal]
      rw [hnone]
      simp only [Option.map_none, Option.toList_none, List.nil_append]
      refine List.perm_append_comm.trans ?_
      simp [entries_node pa, hK]

/-- A node is made for a key that the table does not hold; `his` is the address the search landed
on, `d` the first bit in which it differs from the key. -/
theorem insertNode_spec (hs : Shape rtt t) (A : Malloc RtNode) {rth : Ptr} {addr his : Addr}
    {f g : Frame RtVal} {a b c : List (Frame RtVal)} {near : Tree RtVal} {k : List Bool}
    {n d : Nat} (hl : Landing (view rtt.heads) (bitAt addr) (passes n) t f c near)
    (hcut : Cut (view rtt.heads) (bitAt addr) (bitAt his) d (f :: c) near a g b k)
    (hkey : (view rtt.heads).key f.val = some (firstBits (bitAt his) f.val.bit))
    (hd : d ≤ min f.val.bit n) (hdiff : d < min f.val.bit n → bitAt addr d ≠ bitAt his d)
    (h0 : rth ≠ NULL) (haddr : (rtt.heads rth).rdxRthAddr = some addr)
    (hout : ∀ x ∈ t.pre, x.2.rth ≠ rth) (hnot : ¬(d = n ∧ g.val.bit = n)) :
    InsertOutcome rtt t A rth (firstBits (bitAt addr) n) n
      (RtTable.insertNode rtt A addr his rth g.ptr (Ctx.top NULL b) n d) := by
  have hplug := hl.plug_eq
  rw [hcut.path_eq, plug_append] at hplug
  have hgt : g.ptr ∈ t.ptrs := by
    rw [← hplug, mem_ptrs_plug]
    simp
  cases hA : A.next rtt.nodes with
  | none =>
    have hrun : RtTable.insertNode rtt A addr his rth g.ptr (Ctx.top NULL b) n d =
        .ok (NULL, rtt) := by
      simp [RtTable.insertNode, RtTable.newNode, hA]
    rw [hrun]
    exact .noMemory hA hs rfl ⟨rfl, rfl, rfl, rfl, rfl, rfl, rfl, rfl, rfl⟩
  | some pa =>
    obtain ⟨hfree, hpa⟩ := A.fresh _ _ hA
    have hrun : RtTable.insertNode rtt A addr his rth g.ptr (Ctx.top NULL b) n d =
        RtTable.linkNode (withNode rtt rth pa n) A addr his rth g.ptr (Ctx.top NULL b) pa n d := by
      simp only [RtTable.insertNode, RtTable.newNode, hA, hpa, if_false]
      rfl
    rw [hrun]
    have hpat : pa ∉ t.ptrs := hs.fresh hfree
    have hgpa : g.ptr ≠ pa := fun heq => hpat (heq ▸ hgt)
    have hsame : ∀ q ∈ t.ptrs, (withNode rtt rth pa n).nodes.get q = rtt.nodes.get q :=
      fun q hq => get_withNode_ne rtt fun heq => hpat (heq ▸ hq)
    have hgcell : (withNode rtt rth pa n).nodes.get g.ptr = some (mkSide g.side
        ((plug a near).root NULL) (g.sib.root NULL) (Ctx.top NULL b) g.val) := by
      rw [hsame _ hgt]
      exact hs.get_frame hplug
    have hgbit : (mkSide g.side ((plug a near).root NULL) (g.sib.root NULL) (Ctx.top NULL b)
        g.val : RtNode).rtnBit = g.val.bit := by
      cases g.side <;> rfl
    have hK : (view rtt.heads).key (newVal n rth 0) = some (firstBits (bitAt addr) n) :=
      key_view_of_addr h0 haddr
    rw [RtTable.linkNode, Heap.deref_ok hgcell, exec_bind_ok, hgbit]
    by_cases hgd : g.val.bit = d
    · -- the landing node is as long as the cut
      have hdn : d < n := lt_of_le_of_ne (by omega) fun heq => hnot ⟨heq, hgd.trans heq⟩
      obtain ⟨rfl, rfl, rfl⟩ := hl.cut_eq_landing hkey hdn hdiff hcut hgd
      have hnear : near = .nil := hl.stopped (by simp [passes, hgd, hdn])
      subst hnear
      rw [if_pos hgd, ← hgd]
      have hstr : firstBits (bitAt his) f.val.bit = firstBits (bitAt addr) f.val.bit := by
        have hsh := hcut.shared
        rw [len_view, ← hgd] at hsh
        exact (hsh.eq_of_length (by simp)).symm
      refine hs.attach_outcome hl.plug_eq h0 haddr hout hpa hfree hcut.ctx ?_ hcut.wf hstr
        (hl.onPath f (by simp)) (by omega)
      exact hcut.hole.trans hcut.shared
    · rw [if_neg hgd]
      have hdlt : d < g.val.bit := lt_of_le_of_ne hcut.le (Ne.symm hgd)
      by_cases hdn : d = n
      · -- the new node goes above the cut
        subst hdn
        rw [if_pos rfl]
        exact hs.above_outcome hcut hplug hdlt h0 haddr hout hpa hfree
      · rw [if_neg hdn]
        have hf : g.val.bit ≤ f.val.bit := hl.len_cut_le hs.wf hcut.path_eq
        refine hs.beside_outcome hcut hplug hdlt (by omega) (hdiff (by omega)) h0 haddr hout hpa
          hfree

/-- Where the search of an insertion ends, whatever memory there is: at the node of the key, or at
the place of a new node. -/
inductive Lands (rtt : RtTable) (t : Tree RtVal) (rth : Ptr) (addr : Addr) (n : Nat)
    (run : Malloc RtNode → Exec (Ptr × RtTable)) : Prop
  | diverges : 65528 < n → (∀ A, run A = .error .diverges) → Lands rtt t rth addr n run
  | fills {c : List (Frame RtVal)} {p : Ptr} {v : RtVal} {l r : Tree RtVal} {k : List Bool} :
      (∀ A, run A = RtTable.fillNode rtt rth p) → plug c (.node p v l r) = t → v.bit = n →
      CtxWf (view rtt.heads) k c → k <+: firstBits (bitAt addr) v.bit →
      Wf (view rtt.heads) (firstBits (bitAt addr) v.bit) (.node p v l r) →
      (∀ x ∈ t.pre, x.2.rth = rth → x = (p, v) ∧ rdxTestBit v.flags RDX_RN_DELE_BIT = false) →
      Lands rtt t rth addr n run
  | adds {his : Addr} {f g : Frame RtVal} {a b c : List (Frame RtVal)} {near : Tree RtVal}
      {k : List Bool} {d : Nat} :
      (∀ A, run A = RtTable.insertNode rtt A addr his rth g.ptr (Ctx.top NULL b) n d) →
      Landing (view rtt.heads) (bitAt addr) (passes n) t f c near →
      Cut (view rtt.heads) (bitAt addr) (bitAt his) d (f :: c) near a g b k →
      (view rtt.heads).key f.val = some (firstBits (bitAt his) f.val.bit) →
      d ≤ min f.val.bit n → (d < min f.val.bit n → bitAt addr d ≠ bitAt his d) →
      (∀ x ∈ t.pre, x.2.rth ≠ rth) → ¬(d = n ∧ g.val.bit = n) → Lands rtt t rth addr n run

/-- The search of an insertion into a table that has a root. A head that the table holds already
must be the one of the key. -/
theorem insertBelowRoot_lands (hs : Shape rtt t) {rth : Ptr} {addr : Addr} {n : Nat}
    (hne : t ≠ .nil) (h0 : rth ≠ NULL) (haddr : (rtt.heads rth).rdxRthAddr = some addr)
    (hown : ∀ x ∈ t.pre, x.2.rth = rth → (firstBits (bitAt addr) n, x) ∈ entries (view rtt.heads) t ∧
      rdxTestBit x.2.flags RDX_RN_DELE_BIT = false) :
    Lands rtt t rth addr n fun A => RtTable.insertBelowRoot rtt A rth n := by
  obtain ⟨f, c, near, hl, hdesc⟩ := hs.descend_spec (RtTable.shorterOrGlue n) (passes n) hne
    (fun _ _ _ _ => rfl) addr
  obtain ⟨m, hm, -, hmbit, -, -, -, -, hmrth⟩ := hs.deref_frame hl.plug_eq
  have hflinked := hs.linked_frame hl.plug_eq (List.mem_cons_self (a := f))
  have hfrth : f.val.rth ≠ NULL := by
    refine (key_view_eq_none hflinked).not.mp (hl.key_ne_none hs.wf fun hnone => ?_)
    have hnull : f.val.rth = NULL := (key_view_eq_none hflinked).mp hnone
    simp [passes, hnull]
  obtain ⟨his, hhis⟩ := hflinked.addr hfrth
  have hkey := key_view_of_addr hfrth hhis
  have hsearch : ∀ A, RtTable.insertBelowRoot rtt A rth n = (do
      let dbit ← dbitOf addr his (min f.val.bit n)
      let dbit := if min f.val.bit n < dbit then min f.val.bit n else dbit
      let place ← RtTable.insertClimb rtt.nodes dbit (rtt.nodes.bound + 1) f.ptr
      let m ← rtt.nodes.deref place.1
      if dbit = n && m.rtnBit = n then RtTable.fillNode rtt rth place.1
      else RtTable.insertNode rtt A addr his rth place.1 place.2 n dbit) := by
    intro A
    unfold RtTable.insertBelowRoot
    rw [rdxAddr_ok h0 haddr, exec_bind_ok, hdesc, exec_bind_ok, hm, exec_bind_ok, hmrth,
      rdxAddr_ok hfrth hhis, exec_bind_ok, hmbit]
  rcases dbitOf_spec addr his (min f.val.bit n) with herr | ⟨d₀, hd₀, hagree, hdiff⟩
  · refine .diverges ?_ fun A => by rw [hsearch, herr]; rfl
    by_contra hle
    obtain ⟨d, hd, -⟩ := dbitOf_ends addr his (min f.val.bit n) (by omega)
    rw [herr] at hd
    cases hd
  -- the bit of the cut
  have hmin : (if min f.val.bit n < d₀ then min f.val.bit n else d₀) = min d₀ (min f.val.bit n) := by
    split <;> omega
  generalize hd : min d₀ (min f.val.bit n) = d at hmin
  have hdle : d ≤ min f.val.bit n := by omega
  have hdiff' : d < min f.val.bit n → bitAt addr d ≠ bitAt his d := by
    intro hlt
    have : d = d₀ := by omega
    rw [this]
    exact hdiff (by omega)
  obtain ⟨a, g, b, k, hcut⟩ := hl.cut hs.wf hkey (d := d) (by rw [len_view]; omega)
    fun i hi => hagree i (by omega)
  have hplug := hl.plug_eq
  rw [hcut.path_eq, plug_append] at hplug
  have ha : ∀ x ∈ a, d ≤ x.val.bit := by
    obtain ⟨kf, hc, -⟩ := hl.split hs.wf
    have hsorted := hc.len_sorted
    rw [hcut.path_eq] at hsorted
    intro x hx
    have := (List.pairwise_append.mp hsorted).2.2 x hx g (by simp)
    simp only [len_view] at this
    have := hcut.le
    simp only [len_view] at this
    omega
  have hlen : a.length < rtt.nodes.bound + 1 := by
    have := hs.length_path hl.plug_eq
    rw [hcut.path_eq] at this
    simp at this
    omega
  obtain ⟨mg, hmg, -, hmgbit, -⟩ := hs.deref_frame hplug
  have hfound : ∀ A, RtTable.insertBelowRoot rtt A rth n =
      if d = n && g.val.bit = n then RtTable.fillNode rtt rth g.ptr
      else RtTable.insertNode rtt A addr his rth g.ptr (Ctx.top NULL b) n d := by
    intro A
    rw [hsearch, hd₀, exec_bind_ok]
    simp only [hmin]
    rw [hs.insertClimb_spec hcut.le hcut.above a f c near _ hl.plug_eq hcut.path_eq ha hlen,
      exec_bind_ok]
    simp only [hmg, exec_bind_ok, hmgbit]
  -- an entry for the key can only be at the cut
  have hat : ∀ x, (firstBits (bitAt addr) n, x) ∈ entries (view rtt.heads) t →
      d = n ∧ g.val.bit = n ∧ x = (g.ptr, g.val) := fun x hx =>
    hl.entry_at_cut hs.wf (fun v hv => by simp only [len_view] at hv; simp [passes, hv]) hkey hdle
      hdiff' hcut hx
  by_cases hfill : d = n ∧ g.val.bit = n
  · obtain ⟨rfl, hgn⟩ := hfill
    obtain ⟨l, r, hS⟩ := exists_join_eq g.side g.ptr g.val (plug a near) g.sib
    have hwf := hcut.wf
    rw [plug_cons, hS] at hplug
    rw [hS] at hwf
    have hstr : firstBits (bitAt his) g.val.bit = firstBits (bitAt addr) g.val.bit := by
      have hsh := hcut.shared
      rw [len_view, ← hgn] at hsh
      exact (hsh.eq_of_length (by simp)).symm
    rw [len_view, hstr] at hwf
    refine .fills (fun A => (hfound A).trans (if_pos (by simp [hgn]))) hplug hgn hcut.ctx
      (hgn ▸ hcut.hole) hwf fun x hx hxr => ?_
    obtain ⟨hin, hm⟩ := hown x hx hxr
    obtain ⟨-, -, rfl⟩ := hat x hin
    exact ⟨rfl, hm⟩
  · refine .adds (fun A => (hfound A).trans (if_neg (by simpa using hfill))) hl hcut hkey hdle hdiff'
      (fun x hx hxr => ?_) hfill
    obtain ⟨h1, h2, -⟩ := hat x (hown x hx hxr).1
    exact hfill ⟨h1, h2⟩

/-- Insertion into a table that has a root. A head that the table holds already must be the one
of the key. -/
theorem insertBelowRoot_spec (hs : Shape rtt t) (A : Malloc RtNode) {rth : Ptr} {addr : Addr}
    {n : Nat} (hne : t ≠ .nil) (h0 : rth ≠ NULL) (haddr : (rtt.heads rth).rdxRthAddr = some addr)
    (hown : ∀ x ∈ t.pre, x.2.rth = rth → (firstBits (bitAt addr) n, x) ∈ entries (view rtt.heads) t ∧
      rdxTestBit x.2.flags RDX_RN_DELE_BIT = false) :
    InsertOutcome rtt t A rth (firstBits (bitAt addr) n) n
      (RtTable.insertBelowRoot rtt A rth n) := by
  cases hs.insertBelowRoot_lands hne h0 haddr hown with
  | diverges hn hrun =>
    rw [hrun]
    exact .diverges hn
  | fills hrun hplug hn hctx hhole hwf hsame =>
    rw [hrun, ← hn]
    exact hs.fillNode_spec hplug h0 haddr hctx hhole hwf hsame
  | adds hrun hl hcut hkey hdle hdiff hout hnot =>
    rw [hrun]
    exact hs.insertNode_spec A hl hcut hkey hdle hdiff h0 haddr hout hnot

/-- The first node of a table. -/
theorem insertRoot_spec (hs : Shape rtt .nil) (A : Malloc RtNode) {rth : Ptr} {addr : Addr}
    {n : Nat} (h0 : rth ≠ NULL) (haddr : (rtt.heads rth).rdxRthAddr = some addr) :
    InsertOutcome rtt .nil A rth (firstBits (bitAt addr) n) n
      (.ok (RtTable.insertRoot rtt A rth n)) := by
  unfold RtTable.insertRoot
  cases hA : A.next rtt.nodes with
  | none => exact .noMemory hA hs rfl ⟨rfl, rfl, rfl, rfl, rfl, rfl, rfl, rfl, rfl⟩
  | some pa =>
    obtain ⟨hfree, hpa⟩ := A.fresh _ _ hA
    obtain ⟨hrtn, hrdx, hother⟩ := heads_setRtn rtt rth pa
    have hK : (view rtt.heads).key (newVal n rth 0) = some (firstBits (bitAt addr) n) :=
      key_view_of_addr h0 haddr
    have hgrown := hs.grown ({ withNode rtt rth pa n with rttRoot := pa, rttRoutes := rtt.rttRoutes
      + 1 }) (.node pa (newVal n rth 0) .nil .nil) (p := pa)
      ⟨rfl, ⟨hpa, get_withNode rtt rth pa n, trivial, trivial⟩, by simp [ptrs]⟩
      (Wf.leaf List.nil_prefix (by simp [newVal]) hK) ?_ ?_ haddr (hrdx.trans haddr) hrtn ?_
    · obtain ⟨hshape, hents⟩ := hgrown
      refine .added .root hshape (p := pa) (v := newVal n rth 0) rfl ?_ ⟨rfl, ?_, rfl, rfl, rfl,
        rfl, rfl, rfl, rfl⟩
      · refine (List.Perm.of_eq hents).trans ?_
        rw [entries_node, hK]
        simp
      · show rtt.rttNmalloc + 1 + rtt.rttNfree = rtt.rttNmalloc + rtt.rttNfree + (0 + 0 + 1 - 0)
        omega
    · intro x hx
      simp only [pre, List.append_nil, List.mem_singleton] at hx
      subst hx
      exact ⟨rfl, .inr (.inr ⟨rfl, rfl⟩)⟩
    · intro x hx _ hxr
      exact hother _ hxr
    · intro q m hq
      by_cases hqp : q = pa
      · simp [hqp, ptrs]
      · have hq' : rtt.nodes.get q = some m := by
          rw [← hq]
          exact (get_withNode_ne rtt hqp).symm
        simpa [ptrs] using hs.owned q m hq'

/-- An outcome is one of any table that reads the same. -/
theorem outcome_of_same {rtt : RtTable} (rtt₁ : RtTable) {t : Tree RtVal} {A : Malloc RtNode}
  {rth : Ptr}
    {K : List Bool} {n : Nat} {res : Exec (Ptr × RtTable)}
    (hents : entries (view rtt₁.heads) t = entries (view rtt.heads) t)
    (hcount : Counted rtt rtt₁ 0 0) (ho : InsertOutcome rtt₁ t A rth K n res) :
    InsertOutcome rtt t A rth K n res := by
  have htrans : ∀ {rtt' dn dr}, Counted rtt₁ rtt' dn dr → Counted rtt rtt' dn dr := by
    rintro rtt' dn dr ⟨h1, h2, h3, g1, g2, g3, g4, g5, g6⟩
    obtain ⟨k1, k2, k3, e1, e2, e3, e4, e5, e6⟩ := hcount
    exact ⟨by omega, by omega, by omega, g1.trans e1, g2.trans e2, g3.trans e3, g4.trans e4,
      g5.trans e5, g6.trans e6⟩
  cases ho with
  | diverges h => exact .diverges h
  | present hx hm hs h hc => exact .present (hents ▸ hx) hm hs (h.trans hents) (htrans hc)
  | noMemory hA hs h hc => exact .noMemory hA hs (h.trans hents) (htrans hc)
  | added hg hs hv hp hc => exact .added hg hs hv (hents ▸ hp) (htrans hc)
  | replaced ht hx hm hs hc => exact .replaced ht (hents ▸ hx) hm hs (htrans hc)

/-- In a table that does not convert the user's address becomes the stored key. -/
theorem prepareKey_plain (rtt : RtTable) (copyOk : Bool) {rth : Ptr} {addr : Addr}
    (hconv : rtt.rttConvert = none) (h0 : rth ≠ NULL)
    (haddr : (rtt.heads rth).rthAddr = some addr) :
    RtTable.prepareKey rtt copyOk rth =
      .ok (true, rtt.setHead rth { rtt.heads rth with rdxRthAddr := some addr }) := by
  have hhd : { rtt.heads rth with rthAddr := some addr, rdxRthAddr := some addr } =
      { rtt.heads rth with rdxRthAddr := some addr } := by
    rw [← haddr]
  rw [RtTable.prepareKey, RtTable.readHead, if_neg h0, exec_bind_ok, hconv, haddr]
  exact congrArg (fun hd => Except.ok (true, rtt.setHead rth hd)) hhd

/-- The insertion of a head whose key is prepared, where the table does not check. -/
theorem stdRadixInsert_of_prepared {rtt₀ : RtTable} (A : Malloc RtNode) {copyOk : Bool} {rth : Ptr}
    (n : Nat) (hprep : RtTable.prepareKey rtt copyOk rth = .ok (true, rtt₀))
    (hdebug : rtt₀.rttDebug = false) :
    RtTable.stdRadixInsert rtt A copyOk rth n = RtTable.insertKey rtt₀ A rth n := by
  rw [RtTable.stdRadixInsert, hprep, exec_bind_ok]
  simp only [RtTable.debugStart, hdebug, Bool.not_true, Bool.false_eq_true, if_false,
    Bool.false_and, exec_bind_ok]

/-- In a table that neither checks nor converts the stored key is the user's address. -/
theorem stdRadixInsert_eq (rtt : RtTable) (A : Malloc RtNode) (copyOk : Bool) {rth : Ptr}
    {addr : Addr} (n : Nat) (hdebug : rtt.rttDebug = false) (hconv : rtt.rttConvert = none)
    (h0 : rth ≠ NULL) (haddr : (rtt.heads rth).rthAddr = some addr) :
    RtTable.stdRadixInsert rtt A copyOk rth n =
      (rtt.setHead rth { rtt.heads rth with rdxRthAddr := some addr }).insertKey A rth n := by
  have hprep := prepareKey_plain rtt copyOk hconv h0 haddr
  exact stdRadixInsert_of_prepared A n hprep hdebug

/-- The insertion of a prepared head does one of the things listed in `InsertOutcome`. A head that
the table holds already must be the one of the key. -/
theorem insertKey_spec (hs : Shape rtt t) (A : Malloc RtNode) {rth : Ptr} {addr : Addr} {n : Nat}
    (h0 : rth ≠ NULL) (haddr : (rtt.heads rth).rdxRthAddr = some addr)
    (hown : ∀ x ∈ t.pre, x.2.rth = rth → (firstBits (bitAt addr) n, x) ∈ entries (view rtt.heads) t ∧
      rdxTestBit x.2.flags RDX_RN_DELE_BIT = false) :
    InsertOutcome rtt t A rth (firstBits (bitAt addr) n) n (RtTable.insertKey rtt A rth n) := by
  let rtt₁ : RtTable := { rtt with rttNinserts := rtt.rttNinserts + 1 }
  have hs₁ : Shape rtt₁ t := hs.of_heads (fun _ => rfl) rfl hs.keeps_self
  refine outcome_of_same rtt₁ rfl ⟨rfl, rfl, rfl, rfl, rfl, rfl, rfl, rfl, rfl⟩ ?_
  show InsertOutcome rtt₁ t A rth _ n
    (if rtt₁.rttRoot = NULL then .ok (rtt₁.insertRoot A rth n)
      else RtTable.insertBelowRoot rtt₁ A rth n)
  by_cases hnil : t = .nil
  · rw [if_pos (hs₁.root_eq_null.mpr hnil)]
    subst hnil
    exact hs₁.insertRoot_spec A h0 haddr
  · rw [if_neg (hs₁.root_eq_null.not.mpr hnil)]
    exact hs₁.insertBelowRoot_spec A hnil h0 haddr hown

/-- The address of the user becomes the stored key of a head that the table does not hold, or holds
for that key. -/
theorem keeps_address (hs : Shape rtt t) {rth : Ptr} {addr : Addr} {n : Nat}
    (hown : ∀ x ∈ t.pre, x.2.rth = rth → (firstBits (bitAt addr) n, x) ∈ entries (view rtt.heads) t) :
    Keeps rtt.heads (rtt.setHead rth { rtt.heads rth with rdxRthAddr := some addr }).heads t := by
  intro x hx hx0
  rw [RtTable.heads_setHead]
  by_cases hxr : x.2.rth = rth
  · have hin := hown x hx hxr
    have hlen := (hs.wf.key_isPrefix hin).2
    rw [length_firstBits, len_view] at hlen
    rw [if_pos hxr]
    exact ⟨hxr ▸ (hs.linked x hx).rtn hx0, addr, rfl, hlen ▸ (mem_entries.mp hin).2⟩
  · rw [if_neg hxr]
    exact hs.keeps_self x hx hx0

/-- `std_radix_insert` on a table that neither checks nor converts does one of the things listed
in `InsertOutcome`. A head that the table holds already must be the one of the key. -/
theorem stdRadixInsert_spec (hs : Shape rtt t) (A : Malloc RtNode) (copyOk : Bool) {rth : Ptr}
    {addr : Addr} {n : Nat} (hdebug : rtt.rttDebug = false) (hconv : rtt.rttConvert = none)
    (h0 : rth ≠ NULL) (haddr : (rtt.heads rth).rthAddr = some addr)
    (hown : ∀ x ∈ t.pre, x.2.rth = rth → (firstBits (bitAt addr) n, x) ∈ entries (view rtt.heads) t ∧
      rdxTestBit x.2.flags RDX_RN_DELE_BIT = false) :
    InsertOutcome rtt t A rth (firstBits (bitAt addr) n) n
      (RtTable.stdRadixInsert rtt A copyOk rth n) := by
  let rtt₀ : RtTable := rtt.setHead rth { rtt.heads rth with rdxRthAddr := some addr }
  have hkeep : Keeps rtt.heads rtt₀.heads t := hs.keeps_address fun x hx hxr => (hown x hx hxr).1
  have hs₀ : Shape rtt₀ t := hs.of_heads (fun _ => rfl) rfl hkeep
  have haddr₀ : (rtt₀.heads rth).rdxRthAddr = some addr := by
    show ((rtt.setHead rth _).heads rth).rdxRthAddr = some addr
    simp [RtTable.heads_setHead]
  rw [stdRadixInsert_eq _ A copyOk n hdebug hconv h0 haddr]
  refine outcome_of_same _ hkeep.entries ⟨rfl, rfl, rfl, rfl, rfl, rfl, rfl, rfl, rfl⟩ ?_
  refine hs₀.insertKey_spec A h0 haddr₀ fun x hx hxr => ?_
  rw [hkeep.entries]
  exact hown x hx hxr

end Shape

end OpxCommonUtils.Radix
