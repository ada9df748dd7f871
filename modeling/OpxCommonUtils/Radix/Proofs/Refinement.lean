import OpxCommonUtils.Radix.Proofs.Remove

/-!
# The radix table as a finite map

The abstract table is a map from prefixes to heads. `TableOp` is a call of `std_radix_insert` or
`std_radix_remove` by a user who keeps to the interface: the head is there, its prefix is not
longer than the table allows, a head is not inserted under a second prefix while the table holds
it, and only heads that are in the table are removed. `Refines` connects a table outside walks
with the map, and every call keeps it. Keys of more than 65528 bits are the exception: there
`dbit`, a `u_short`, may run over.
-/

namespace OpxCommonUtils.Radix

open Tree Trie LinkTree

/-- The abstract table: the head stored for a prefix. -/
abbrev PrefixMap := List Bool → Option Ptr

namespace PrefixMap

/-- No prefix is stored. -/
def empty : PrefixMap := fun _ => none

/-- Store `rth` for the prefix `K`. -/
def insert (M : PrefixMap) (K : List Bool) (rth : Ptr) : PrefixMap :=
  fun K' => if K' = K then some rth else M K'

/-- Delete the head `rth`. -/
def remove (M : PrefixMap) (rth : Ptr) : PrefixMap :=
  fun K => if M K = some rth then none else M K

end PrefixMap

/-- A call of the interface. For an insertion the user first writes `addr` into the head. -/
inductive TableOp where
  | insert (A : Malloc RtNode) (copyOk : Bool) (rth : Ptr) (addr : Addr) (bitlen : Nat)
  | remove (rth : Ptr)

namespace TableOp

/-- The call on the table, with the head it returns (for a removal, the head removed). -/
def run (rtt : RtTable) : TableOp → Exec (Ptr × RtTable)
  | .insert A copyOk rth addr bitlen =>
    (rtt.setHead rth { rtt.heads rth with rthAddr := some addr }).stdRadixInsert A copyOk rth bitlen
  | .remove rth => do
    let rtt ← rtt.stdRadixRemove rth
    return (rth, rtt)

/-- What the user of a table for keys of `maxaddrlen` bits may ask for when it holds `M`. -/
def Allowed (maxaddrlen : Nat) (M : PrefixMap) : TableOp → Prop
  | .insert _ _ rth addr bitlen =>
    rth ≠ NULL ∧ bitlen ≤ maxaddrlen ∧ ∀ K, M K = some rth → K = firstBits (bitAt addr) bitlen
  | .remove rth => ∃ K, M K = some rth

/-- The call on the map. -/
def spec (M : PrefixMap) : TableOp → Ptr × PrefixMap
  | .insert _ _ rth addr bitlen =>
    match M (firstBits (bitAt addr) bitlen) with
    | some old => (old, M)
    | none => (rth, M.insert (firstBits (bitAt addr) bitlen) rth)
  | .remove rth => (rth, M.remove rth)

/-- The allocations of the call succeed. -/
def Succeeds : TableOp → Prop
  | .insert A _ _ _ _ => A.Succeeds
  | .remove _ => True

end TableOp

/-- The table stores the map `M` in a tree of shape `t`, outside all walks. -/
structure Refines (rtt : RtTable) (t : Tree RtVal) (M : PrefixMap) : Prop where
  shape : Shape rtt t
  plain : rtt.rttDebug = false ∧ rtt.rttConvert = none ∧ rtt.rttRadicalused = false
  quiet : ∀ x ∈ t.pre, rdxTestBit x.2.flags RDX_RN_DELE_BIT = false ∧ x.2.lock = 0
  short : ∀ x ∈ t.pre, x.2.bit ≤ rtt.rttMaxaddrlen
  inodes : rtt.rttInodes = t.size
  alloc : rtt.rttNmalloc = t.size + rtt.rttNfree
  routes : rtt.rttRoutes = (entries (view rtt.heads) t).length
  stored : ∀ K rth, M K = some rth ↔
    ∃ x, (K, x) ∈ entries (view rtt.heads) t ∧ x.2.rth = rth

/-- A cell of a grown tree was there before, or is unmarked and otherwise like one that was
there, or is new. -/
theorem Grown.mem_pre {n : Nat} {rth : Ptr} {t t' : Tree RtVal} (h : Grown n rth t t')
    {x : Ptr × RtVal} (hx : x ∈ t'.pre) :
    x ∈ t.pre ∨ (rdxTestBit x.2.flags RDX_RN_DELE_BIT = false ∧
      (x.2.bit ≤ n ∧ x.2.lock = 0 ∨ ∃ y ∈ t.pre, x.2.bit = y.2.bit ∧ x.2.lock = y.2.lock)) := by
  have hnew : ∀ p d r ver, d ≤ n → x = (p, newVal d r ver) →
      rdxTestBit x.2.flags RDX_RN_DELE_BIT = false ∧ (x.2.bit ≤ n ∧ x.2.lock = 0 ∨
        ∃ y ∈ t.pre, x.2.bit = y.2.bit ∧ x.2.lock = y.2.lock) := by
    rintro p d r ver hd rfl
    exact ⟨(by decide : rdxTestBit 0 RDX_RN_DELE_BIT = false), .inl ⟨hd, rfl⟩⟩
  cases h with
  | root =>
    simp only [pre, List.append_nil, List.mem_singleton] at hx
    exact .inr (hnew _ _ _ _ le_rfl hx)
  | @fill c p v l r h0 =>
    simp only [mem_pre_plug, pre, List.mem_cons, List.mem_append] at hx
    rcases hx with (rfl | hx) | hx
    · refine .inr ⟨rdxTestBit_clearBit v.flags, .inr ⟨(p, v), ?_, rfl, rfl⟩⟩
      exact (mem_pre_plug ..).mpr (.inl (by simp [pre]))
    · exact .inl ((mem_pre_plug ..).mpr (.inl (by simp [pre, hx])))
    · exact .inl ((mem_pre_plug ..).mpr (.inr hx))
  | attach =>
    simp only [mem_pre_plug, pre, List.append_nil, List.mem_singleton] at hx
    rcases hx with hx | hx
    · exact .inr (hnew _ _ _ _ le_rfl hx)
    · exact .inl ((mem_pre_plug ..).mpr (.inr hx))
  | above =>
    simp only [mem_pre_plug, mem_pre_join] at hx
    rcases hx with (hx | hx | hx) | hx
    · exact .inr (hnew _ _ _ _ le_rfl hx)
    · exact .inl ((mem_pre_plug ..).mpr (.inl hx))
    · simp [pre] at hx
    · exact .inl ((mem_pre_plug ..).mpr (.inr hx))
  | beside hd =>
    simp only [mem_pre_plug, mem_pre_join] at hx
    rcases hx with (hx | hx | hx) | hx
    · exact .inr (hnew _ _ _ _ hd.le hx)
    · exact .inl ((mem_pre_plug ..).mpr (.inl hx))
    · simp only [pre, List.append_nil, List.mem_singleton] at hx
      exact .inr (hnew _ _ _ _ le_rfl hx)
    · exact .inl ((mem_pre_plug ..).mpr (.inr hx))

theorem Grown.size_le {n : Nat} {rth : Ptr} {t t' : Tree RtVal} (h : Grown n rth t t') :
    t.size ≤ t'.size := by
  cases h <;> simp only [size_plug, size_join, size] <;> omega

/-- A key that an insertion added to the entries was not among them. -/
theorem Shape.key_is_new {rtt : RtTable} {t : Tree RtVal} (hs : Shape rtt t) {K : List Bool}
    {x : Ptr × RtVal} {es : List (List Bool × Ptr × RtVal)}
    (hperm : (entries (view rtt.heads) t).Perm ((K, x) :: es)) (y : Ptr × RtVal) : (K, y) ∉ es := by
  intro hy
  have hnd := (hs.wf.sorted.imp (fun hlt => hlt.ne) :
    (entries (view rtt.heads) t).Pairwise (fun a b => a.1 ≠ b.1))
  have hnd' := (hperm.pairwise_iff (fun hab => hab.symm)).mp hnd
  exact (List.rel_of_pairwise_cons hnd' hy) rfl

namespace Refines

variable {rtt : RtTable} {t : Tree RtVal} {M : PrefixMap}

theorem create (maxaddrlen : Nat) (rmfree : Bool) (heads : Ptr → RtHead) :
    Refines (RtTable.stdRadixCreate maxaddrlen rmfree heads) .nil PrefixMap.empty where
  shape := ⟨⟨rfl, trivial, by simp⟩, .nil, by simp [pre], fun p n h => by cases h⟩
  plain := ⟨rfl, rfl, rfl⟩
  quiet := by simp [pre]
  short := by simp [pre]
  inodes := rfl
  alloc := rfl
  routes := rfl
  stored K rth := by simp [PrefixMap.empty]

/-- Stored heads are not null, and none is stored for two prefixes. -/
theorem ne_null (h : Refines rtt t M) {K : List Bool} {rth : Ptr} (hK : M K = some rth) :
    rth ≠ NULL := by
  obtain ⟨x, hx, rfl⟩ := (h.stored K rth).mp hK
  intro h0
  have := (mem_entries.mp hx).2
  simp [view, h0] at this

theorem head_inj (h : Refines rtt t M) {K K' : List Bool} {rth : Ptr} (hK : M K = some rth)
    (hK' : M K' = some rth) : K = K' := by
  have h0 := h.ne_null hK
  obtain ⟨x, hx, rfl⟩ := (h.stored K rth).mp hK
  obtain ⟨y, hy, heq⟩ := (h.stored K' _).mp hK'
  obtain ⟨hx1, hx2⟩ := mem_entries.mp hx
  obtain ⟨hy1, hy2⟩ := mem_entries.mp hy
  have := h.shape.rth_inj hx1 hy1 h0 heq.symm
  subst this
  rw [hx2] at hy2
  exact Option.some_inj.mp hy2

/-- The entry of a cell that holds a head. -/
theorem exists_key (h : Refines rtt t M) {x : Ptr × RtVal} (hx : x ∈ t.pre)
    (h0 : x.2.rth ≠ NULL) : ∃ K, (K, x) ∈ entries (view rtt.heads) t ∧ M K = some x.2.rth := by
  obtain ⟨a, ha⟩ := (h.shape.linked x hx).addr h0
  have hin := mem_entries.mpr ⟨hx, key_view_of_addr h0 ha⟩
  exact ⟨_, hin, (h.stored _ _).mpr ⟨x, hin, rfl⟩⟩

/-- The counts of a table whose tree grew, or stayed, along with its counters. -/
theorem of_counted (h : Refines rtt t M) {rtt' : RtTable} {t' : Tree RtVal} {M' : PrefixMap}
    (dr : Nat) (hs : Shape rtt' t') (hcount : Counted rtt rtt' (t'.size - t.size) dr)
    (hsize : t.size ≤ t'.size)
    (hlen : (entries (view rtt'.heads) t').length = (entries (view rtt.heads) t).length + dr)
    (hquiet : ∀ x ∈ t'.pre, rdxTestBit x.2.flags RDX_RN_DELE_BIT = false ∧ x.2.lock = 0)
    (hshort : ∀ x ∈ t'.pre, x.2.bit ≤ rtt.rttMaxaddrlen)
    (hstored : ∀ K rth, M' K = some rth ↔
      ∃ x, (K, x) ∈ entries (view rtt'.heads) t' ∧ x.2.rth = rth) : Refines rtt' t' M' := by
  obtain ⟨hin, hal, hro, hmax, hdebug, -, hconv, hrad, -⟩ := hcount
  have halloc := h.alloc
  have hinodes := h.inodes
  refine ⟨hs, ⟨hdebug.trans h.plain.1, hconv.trans h.plain.2.1, hrad.trans h.plain.2.2⟩, hquiet,
    fun x hx => hmax ▸ hshort x hx, ?_, ?_, ?_, hstored⟩
  · omega
  · omega
  · rw [hro, hlen, h.routes]

/-- The table in which the user has written the address of a head. -/
theorem setHead_addr (h : Refines rtt t M) (rth : Ptr) (addr : Addr) :
    Refines (rtt.setHead rth { rtt.heads rth with rthAddr := some addr }) t M := by
  have hkeep : Keeps rtt.heads
      (rtt.setHead rth { rtt.heads rth with rthAddr := some addr }).heads t := by
    intro x hx h0
    rw [RtTable.heads_setHead]
    by_cases hxr : x.2.rth = rth
    · subst hxr
      rw [if_pos rfl]
      exact h.shape.keeps_self x hx h0
    · rw [if_neg hxr]
      exact h.shape.keeps_self x hx h0
  refine h.of_counted 0 (h.shape.of_heads (fun _ => rfl) rfl hkeep)
    ⟨by simp [RtTable.setHead], by simp [RtTable.setHead], rfl, rfl, rfl, rfl, rfl, rfl, rfl⟩ le_rfl
    (by rw [hkeep.entries]; rfl) h.quiet h.short ?_
  rw [hkeep.entries]
  exact h.stored

/-- `std_radix_insert` does on the table what the map says, except that it may run out of memory,
or never end on keys of more than 65528 bits. -/
theorem insert_step (h : Refines rtt t M) {A : Malloc RtNode} {copyOk : Bool} {rth : Ptr}
    {addr : Addr} {n : Nat}
    (hallow : TableOp.Allowed rtt.rttMaxaddrlen M (.insert A copyOk rth addr n)) :
    (TableOp.run rtt (.insert A copyOk rth addr n) = .error .diverges ∧ 65528 < n) ∨
      ∃ r rtt' t', TableOp.run rtt (.insert A copyOk rth addr n) = .ok (r, rtt') ∧
        rtt'.rttMaxaddrlen = rtt.rttMaxaddrlen ∧
        (r = NULL ∧ ¬A.Succeeds ∧ Refines rtt' t' M ∨
          TableOp.spec M (.insert A copyOk rth addr n) = (r, (TableOp.spec M
            (.insert A copyOk rth addr n)).2) ∧
            Refines rtt' t' (TableOp.spec M (.insert A copyOk rth addr n)).2) := by
  obtain ⟨h0, hn, hkey⟩ := hallow
  let rtt₀ := rtt.setHead rth { rtt.heads rth with rthAddr := some addr }
  have h₀ : Refines rtt₀ t M := h.setHead_addr rth addr
  have hinto : InsertOutcome rtt₀ t A rth (firstBits (bitAt addr) n) n
      (TableOp.run rtt (.insert A copyOk rth addr n)) := by
    refine h₀.shape.stdRadixInsert_spec A copyOk h₀.plain.1 h₀.plain.2.1 h0 ?_ fun x hx hxr => ?_
    · simp [rtt₀, RtTable.heads_setHead]
    · obtain ⟨K, hin, hK⟩ := h₀.exists_key hx (hxr ▸ h0)
      rw [hxr] at hK
      exact ⟨hkey K hK ▸ hin, (h₀.quiet x hx).1⟩
  generalize TableOp.run rtt (.insert A copyOk rth addr n) = res at hinto
  cases hinto with
  | diverges hlt => exact .inl ⟨rfl, hlt⟩
  | @present rtt' x hx _ hs hents hcount =>
    have hM : M (firstBits (bitAt addr) n) = some x.2.rth := (h₀.stored _ _).mpr ⟨x, hx, rfl⟩
    refine .inr ⟨_, rtt', t, rfl, hcount.config.1, .inr ⟨by simp [TableOp.spec, hM], ?_⟩⟩
    refine h₀.of_counted _ hs (by rwa [Nat.sub_self]) le_rfl (by rw [hents]; rfl) h₀.quiet
      h₀.short ?_
    rw [hents]
    simpa [TableOp.spec, hM] using h₀.stored
  | @noMemory rtt' hp hA hs hents hcount =>
    refine .inr ⟨_, rtt', t, rfl, hcount.config.1, .inl ⟨rfl, fun hsucc => ?_, ?_⟩⟩
    · obtain ⟨p, hp'⟩ := hsucc hp
      rw [hA] at hp'
      cases hp'
    · refine h₀.of_counted _ hs (by rwa [Nat.sub_self]) le_rfl (by rw [hents]; rfl)
        h₀.quiet h₀.short ?_
      rw [hents]
      exact h₀.stored
  | @added rtt' t' p v hg hs hv hperm hcount =>
    have hM : M (firstBits (bitAt addr) n) = none := by
      cases hM : M (firstBits (bitAt addr) n) with
      | none => rfl
      | some old =>
        obtain ⟨y, hy, -⟩ := (h₀.stored _ _).mp hM
        exact (hs.key_is_new hperm y hy).elim
    refine .inr ⟨_, rtt', t', rfl, hcount.config.1, .inr ⟨by simp [TableOp.spec, hM], ?_⟩⟩
    refine h₀.of_counted _ hs hcount hg.size_le (by rw [hperm.length_eq]; rfl) (fun x hx => ?_)
      (fun x hx => ?_) fun K r => ?_
    · rcases hg.mem_pre hx with hx | ⟨hm, ⟨-, hl⟩ | ⟨y, hy, -, hl⟩⟩
      · exact h₀.quiet x hx
      · exact ⟨hm, hl⟩
      · exact ⟨hm, hl.trans (h₀.quiet y hy).2⟩
    · rcases hg.mem_pre hx with hx | ⟨-, ⟨hb, -⟩ | ⟨y, hy, hb, -⟩⟩
      · exact h₀.short x hx
      · exact hb.trans hn
      · exact hb ▸ h₀.short y hy
    · have hspec : (TableOp.spec M (.insert A copyOk rth addr n)).2 =
          M.insert (firstBits (bitAt addr) n) rth := by simp [TableOp.spec, hM]
      rw [hspec, PrefixMap.insert]
      split
      · next hK =>
        subst hK
        constructor
        · intro hr
          exact ⟨(p, v), hperm.mem_iff.mpr List.mem_cons_self, hv.trans (Option.some_inj.mp hr)⟩
        · rintro ⟨y, hy, hyr⟩
          have hp' : (firstBits (bitAt addr) n, p, v) ∈ entries (view rtt'.heads) t' :=
            hperm.mem_iff.mpr List.mem_cons_self
          rw [← hyr, hs.wf.entry_unique hy hp', hv]
      · next hK =>
        rw [h₀.stored K r]
        refine exists_congr fun y => and_congr_left fun _ => ?_
        rw [hperm.mem_iff, List.mem_cons]
        simp [hK]
  | @replaced rtt' c p v l r ht _ hm _ _ =>
    have hpv : (p, v) ∈ t.pre := by
      rw [ht, mem_pre_plug]
      simp [pre]
    rw [(h₀.quiet _ hpv).1] at hm
    cases hm

/-- `std_radix_remove` of a stored head takes exactly its prefix off the map. -/
theorem remove_step (h : Refines rtt t M) {rth : Ptr} {K₀ : List Bool} (hK₀ : M K₀ = some rth) :
    ∃ rtt' t', TableOp.run rtt (.remove rth) = .ok (rth, rtt') ∧
      rtt'.rttMaxaddrlen = rtt.rttMaxaddrlen ∧ Refines rtt' t' (M.remove rth) := by
  have h0 := h.ne_null hK₀
  obtain ⟨⟨p, v⟩, hin, rfl⟩ := (h.stored K₀ rth).mp hK₀
  obtain ⟨hmem, hkey⟩ := mem_entries.mp hin
  obtain ⟨c, l, r, hplug⟩ := exists_plug_of_mem_pre hmem
  have heq := hplug.symm
  let rtt₁ : RtTable := { rtt with rttNremoves := rtt.rttNremoves + 1 }
  have hs₁ : Shape rtt₁ t := h.shape.of_heads (fun _ => rfl) rfl h.shape.keeps_self
  obtain ⟨t', ps, ret, rtt', hpr, hres, hs', hents, hfreed, hroutes⟩ :=
    hs₁.removeNode_spec .walkup hplug (h.quiet _ hmem).2 fun f d hcd _ _ _ =>
      (h.quiet _ (heq ▸ hcd ▸ Shape.mem_pre_of_frame List.mem_cons_self)).2
  have hperm := hpr.entries_perm rtt.heads
  rw [← heq, hkey] at hperm
  have hents' : entries (view rtt'.heads) t' = entries (view rtt.heads) t' := hents
  rw [← hents'] at hperm
  simp only [Option.map_some, Option.toList_some, List.singleton_append] at hperm
  obtain ⟨hmax, hdebug, -, hconv, hrad, -⟩ := hfreed.config
  have hrun : TableOp.run rtt (.remove v.rth) = .ok (v.rth, rtt') := by
    have hget : rtt.nodes.get p = some (NodeLayout.cell (l.root NULL) (r.root NULL)
        (Ctx.top NULL c) v) := h.shape.get_node hplug
    have hrtn : (rtt.heads v.rth).rthRtn = p := (h.shape.linked _ hmem).rtn h0
    have hres' : RtTable.removeNode { rtt with rttNremoves := rtt.rttNremoves + 1 } p .walkup =
        .ok (ret.1, ret.2, rtt') := hres
    have hlock : v.lock = 0 := (h.quiet _ hmem).2
    have hrm : RtTable.stdRadixRemove rtt v.rth = .ok rtt' := by
      rw [RtTable.stdRadixRemove, RtTable.readHead, if_neg h0, exec_bind_ok]
      simp only [hrtn, Heap.deref_ok hget, exec_bind_ok, cell_rtNode, hlock, bne_self_eq_false,
        Bool.false_eq_true, if_false]
      rw [hres', exec_bind_ok]
      simp [RtTable.unlinkChange, hrad.trans h.plain.2.2]
    rw [TableOp.run, hrm]
    rfl
  have hsize := hpr.size_eq
  rw [← heq] at hsize
  have hin' : ∀ y, y ∈ entries (view rtt'.heads) t' → y.2 ≠ (p, v) := by
    intro y hy hyp
    have hnd := (h.shape.wf.sorted.imp (fun hlt => hlt.ne) :
      (entries (view rtt.heads) t).Pairwise (fun a b => a.1 ≠ b.1))
    have hnd' := (hperm.pairwise_iff (fun hab => hab.symm)).mp hnd
    have hy' : (y.1, p, v) ∈ entries (view rtt.heads) t := by
      rw [← hyp]
      exact hperm.mem_iff.mpr (List.mem_cons_of_mem _ hy)
    have hkeyeq : K₀ = y.1 := by
      have := (mem_entries.mp hy').2
      rw [hkey] at this
      exact Option.some_inj.mp this
    exact List.rel_of_pairwise_cons hnd' hy hkeyeq
  refine ⟨rtt', t', hrun, hmax, hs', ⟨hdebug.trans h.plain.1, hconv.trans h.plain.2.1,
    hrad.trans h.plain.2.2⟩, fun x hx => ?_, fun x hx => ?_, ?_, ?_, ?_, fun K r => ?_⟩
  · rcases hpr.mem_pre (heq ▸ h.shape.holds.nodup) hx with rfl | ⟨hx, -⟩
    · exact h.quiet (p, v) hmem
    · exact h.quiet x (heq ▸ hx)
  · rw [hmax]
    rcases hpr.mem_pre (heq ▸ h.shape.holds.nodup) hx with rfl | ⟨hx, -⟩
    · exact h.short (p, v) hmem
    · exact h.short x (heq ▸ hx)
  · have hinodes : rtt₁.rttInodes = t.size := h.inodes
    have := hfreed.inodes (by omega)
    omega
  · have hnm : rtt'.rttNmalloc = rtt.rttNmalloc := hfreed.nmalloc
    have hnf : rtt'.rttNfree = rtt.rttNfree + ps.length := hfreed.nfree
    have := h.alloc
    omega
  · have hlen := hperm.length_eq
    rw [hroutes]
    show ulongPred rtt.rttRoutes = _
    rw [h.routes, hlen]
    simp [ulongPred]
  · rw [PrefixMap.remove]
    split
    · next hK =>
      refine iff_of_false (by simp) ?_
      rintro ⟨y, hy, -⟩
      have hy' : (K, y) ∈ entries (view rtt.heads) t :=
        hperm.mem_iff.mpr (List.mem_cons_of_mem _ hy)
      have hKK := h.head_inj hK hK₀
      subst hKK
      exact hin' _ hy (h.shape.wf.entry_unique hy' hin)
    · next hK =>
      rw [h.stored K r]
      refine exists_congr fun y => and_congr_left fun hyr => ?_
      rw [hperm.mem_iff, List.mem_cons]
      refine or_iff_right ?_
      rintro heqy
      obtain ⟨rfl, rfl⟩ := Prod.mk.inj heqy
      exact hK hK₀

end Refines

/-! ## Runs -/

namespace TableOp

/-- An insertion for a new prefix. -/
theorem spec_insert {M : PrefixMap} {A : Malloc RtNode} {copyOk : Bool} {rth : Ptr}
    {addr : Addr} {n : Nat} (hM : M (firstBits (bitAt addr) n) = none) :
    (TableOp.insert A copyOk rth addr n).spec M =
      (rth, M.insert (firstBits (bitAt addr) n) rth) := by
  simp [spec, hM]

/-- A sequence of calls, with the heads they return. -/
def runAll (rtt : RtTable) : List TableOp → Exec (List Ptr × RtTable)
  | [] => .ok ([], rtt)
  | op :: ops => do
    let (r, rtt) ← op.run rtt
    let (rs, rtt) ← runAll rtt ops
    return (r :: rs, rtt)

/-- A sequence of calls on the map. -/
def specAll (M : PrefixMap) : List TableOp → List Ptr × PrefixMap
  | [] => ([], M)
  | op :: ops => ((op.spec M).1 :: (specAll (op.spec M).2 ops).1, (specAll (op.spec M).2 ops).2)

/-- Every call of the sequence is allowed when its turn comes, and its allocations succeed. -/
def AllAllowed (maxaddrlen : Nat) (M : PrefixMap) : List TableOp → Prop
  | [] => True
  | op :: ops =>
    op.Allowed maxaddrlen M ∧ op.Succeeds ∧ AllAllowed maxaddrlen (op.spec M).2 ops

/-- Insertions of different heads that are not stored yet. -/
theorem allAllowed_inserts {maxaddrlen : Nat} (items : List (Ptr × Addr × Nat)) :
    ∀ {M : PrefixMap}, (∀ x ∈ items, x.1 ≠ NULL ∧ x.2.2 ≤ maxaddrlen) →
      (items.map Prod.fst).Nodup → (∀ x ∈ items, ∀ K, M K ≠ some x.1) →
      AllAllowed maxaddrlen M (items.map fun x => .insert .above true x.1 x.2.1 x.2.2) := by
  induction items with
  | nil => exact fun _ _ _ => trivial
  | cons x items ih =>
    intro M hok hnodup hnew
    obtain ⟨hout, hrest⟩ := List.nodup_cons.mp hnodup
    refine ⟨⟨(hok x List.mem_cons_self).1, (hok x List.mem_cons_self).2, fun K hK => ?_⟩,
      Malloc.succeeds_above, ih (fun y hy => hok y (List.mem_cons_of_mem _ hy)) hrest
        fun y hy K => ?_⟩
    · exact absurd hK (hnew x List.mem_cons_self K)
    · have hne : y.1 ≠ x.1 := fun heq => hout (heq ▸ List.mem_map_of_mem hy)
      have hold := hnew y (List.mem_cons_of_mem _ hy) K
      simp only [spec]
      split
      · exact hold
      · simp only [PrefixMap.insert]
        split_ifs
        · simpa using hne.symm
        · exact hold

end TableOp

/-- The tables, with the map they store, that calls lead to from a new table for keys of
`maxaddrlen` bits. A failed insertion returns `NULL` and stores nothing. -/
inductive Reached (maxaddrlen : Nat) : RtTable → PrefixMap → Prop
  | create {rmfree : Bool} {heads : Ptr → RtHead} :
      Reached maxaddrlen (RtTable.stdRadixCreate maxaddrlen rmfree heads) PrefixMap.empty
  | step {rtt rtt' : RtTable} {M : PrefixMap} {op : TableOp} {r : Ptr} : Reached maxaddrlen rtt M →
      op.Allowed maxaddrlen M → op.run rtt = .ok (r, rtt') →
      Reached maxaddrlen rtt' (if r = NULL then M else (op.spec M).2)

namespace Refines

variable {rtt : RtTable} {t : Tree RtVal} {M : PrefixMap}

/-- The head an allowed call returns on the map is not null. -/
theorem spec_ne_null (h : Refines rtt t M) {maxaddrlen : Nat} {op : TableOp}
    (hallow : op.Allowed maxaddrlen M) : (op.spec M).1 ≠ NULL := by
  cases op with
  | insert A copyOk rth addr n =>
    simp only [TableOp.spec]
    cases hM : M (firstBits (bitAt addr) n) with
    | none => exact hallow.1
    | some old => exact h.ne_null hM
  | remove rth =>
    obtain ⟨K, hK⟩ := hallow
    exact h.ne_null hK

/-- A call whose allocations succeed does what the map says, for keys of at most 65528 bits. -/
theorem run_spec (h : Refines rtt t M) {op : TableOp} (hmax : rtt.rttMaxaddrlen ≤ 65528)
    (hallow : op.Allowed rtt.rttMaxaddrlen M) (hsucc : op.Succeeds) :
    ∃ rtt' t', op.run rtt = .ok ((op.spec M).1, rtt') ∧
      rtt'.rttMaxaddrlen = rtt.rttMaxaddrlen ∧ Refines rtt' t' (op.spec M).2 := by
  cases op with
  | insert A copyOk rth addr n =>
    rcases h.insert_step hallow with ⟨-, hlt⟩ | ⟨r, rtt', t', hrun, hlen, ⟨-, hfail, -⟩ | ⟨hr, href⟩⟩
    · have := hallow.2.1
      omega
    · exact absurd hsucc hfail
    · exact ⟨rtt', t', by rw [hrun, hr], hlen, href⟩
  | remove rth =>
    obtain ⟨K, hK⟩ := hallow
    exact h.remove_step hK

/-- A call that delivers a table delivers one that stores the map after the call. -/
theorem run_ok (h : Refines rtt t M) {op : TableOp} {r : Ptr} {rtt' : RtTable}
    (hallow : op.Allowed rtt.rttMaxaddrlen M) (hrun : op.run rtt = .ok (r, rtt')) :
    ∃ t', rtt'.rttMaxaddrlen = rtt.rttMaxaddrlen ∧
      Refines rtt' t' (if r = NULL then M else (op.spec M).2) := by
  have hne := h.spec_ne_null hallow
  cases op with
  | insert A copyOk rth addr n =>
    rcases h.insert_step hallow with ⟨herr, -⟩ | ⟨r', rtt₁, t', hrun', hlen, hcase⟩
    · rw [hrun] at herr
      cases herr
    · rw [hrun] at hrun'
      obtain ⟨rfl, rfl⟩ := Prod.mk.inj (Except.ok.inj hrun')
      rcases hcase with ⟨rfl, -, href⟩ | ⟨hr, href⟩
      · exact ⟨t', hlen, by rwa [if_pos rfl]⟩
      · refine ⟨t', hlen, ?_⟩
        rw [hr] at hne
        rwa [if_neg hne]
  | remove rth =>
    obtain ⟨K, hK⟩ := hallow
    obtain ⟨rtt₁, t', hrun', hlen, href⟩ := h.remove_step hK
    rw [hrun] at hrun'
    obtain ⟨rfl, rfl⟩ := Prod.mk.inj (Except.ok.inj hrun')
    have hr : r ≠ NULL := hne
    exact ⟨t', hlen, by rwa [if_neg hr]⟩

/-- A sequence of calls does what it does on the map. -/
theorem runAll_spec {ops : List TableOp} : ∀ {rtt : RtTable} {t : Tree RtVal} {M : PrefixMap},
    Refines rtt t M → rtt.rttMaxaddrlen ≤ 65528 → TableOp.AllAllowed rtt.rttMaxaddrlen M ops →
    ∃ rtt' t', TableOp.runAll rtt ops = .ok ((TableOp.specAll M ops).1, rtt') ∧
      Refines rtt' t' (TableOp.specAll M ops).2 := by
  induction ops with
  | nil => exact fun h _ _ => ⟨_, _, rfl, h⟩
  | cons op ops ih =>
    intro rtt t M h hmax hall
    obtain ⟨hallow, hsucc, hall⟩ := hall
    obtain ⟨rtt₁, t₁, hrun, hlen, h₁⟩ := h.run_spec hmax hallow hsucc
    obtain ⟨rtt', t', hruns, h'⟩ := ih h₁ (hlen ▸ hmax) (hlen ▸ hall)
    refine ⟨rtt', t', ?_, h'⟩
    rw [TableOp.runAll, hrun, exec_bind_ok]
    simp only [hruns, exec_bind_ok]
    rfl

end Refines

/-- Whatever calls lead to stores its map. -/
theorem Reached.refines {maxaddrlen : Nat} {rtt : RtTable} {M : PrefixMap}
    (h : Reached maxaddrlen rtt M) : ∃ t, Refines rtt t M ∧ rtt.rttMaxaddrlen = maxaddrlen := by
  induction h with
  | create => exact ⟨.nil, Refines.create .., rfl⟩
  | step _ hallow hrun ih =>
    obtain ⟨t, ht, hlen⟩ := ih
    obtain ⟨t', hlen', ht'⟩ := ht.run_ok (hlen.symm ▸ hallow) hrun
    exact ⟨t', ht', hlen'.trans hlen⟩

/-- Allowed calls run, and the table they lead to stores the map they make. -/
theorem Reached.runAll {maxaddrlen : Nat} (hmax : maxaddrlen ≤ 65528) {ops : List TableOp} :
    ∀ {rtt : RtTable} {M : PrefixMap}, Reached maxaddrlen rtt M →
      TableOp.AllAllowed maxaddrlen M ops →
      ∃ rtt', TableOp.runAll rtt ops = .ok ((TableOp.specAll M ops).1, rtt') ∧
        Reached maxaddrlen rtt' (TableOp.specAll M ops).2 := by
  induction ops with
  | nil => exact fun h _ => ⟨_, rfl, h⟩
  | cons op ops ih =>
    intro rtt M h hall
    obtain ⟨hallow, hsucc, hall⟩ := hall
    obtain ⟨t, ht, hlen⟩ := h.refines
    subst hlen
    obtain ⟨rtt₁, t₁, hrun, -, -⟩ := ht.run_spec hmax hallow hsucc
    have hstep := h.step hallow hrun
    rw [if_neg (ht.spec_ne_null hallow)] at hstep
    obtain ⟨rtt', hruns, h'⟩ := ih hstep hall
    refine ⟨rtt', ?_, h'⟩
    rw [TableOp.runAll, hrun, exec_bind_ok]
    simp only [hruns, exec_bind_ok]
    rfl

/-- Allowed calls lead to a table that stores the map they make. -/
theorem exists_reached {maxaddrlen : Nat} (hmax : maxaddrlen ≤ 65528) {ops : List TableOp}
    {rtt : RtTable} {M : PrefixMap} (h : Reached maxaddrlen rtt M)
    (hall : TableOp.AllAllowed maxaddrlen M ops) :
    ∃ rtt', Reached maxaddrlen rtt' (TableOp.specAll M ops).2 := by
  obtain ⟨rtt', -, h'⟩ := h.runAll hmax hall
  exact ⟨rtt', h'⟩

end OpxCommonUtils.Radix
