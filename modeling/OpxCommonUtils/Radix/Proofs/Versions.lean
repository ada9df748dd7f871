import OpxCommonUtils.Misc.Capped
import OpxCommonUtils.Radix.Versions
import OpxCommonUtils.Radix.Proofs.WalkReturn

/-!
# The version of a node bounds those below

In every run of insertions, removals and `std_radix_setversion` the version of a node is not below
that of its head or of a node below it, nor above that of the table (`Versioned`). A new leaf has
version 0 and its head too, a node that is put above another one takes its version, a child that is
promoted has a version its new parent bounds, and `std_radix_setversion` raises a whole path to a
version above all.
-/

namespace OpxCommonUtils.Radix

open Tree Trie LinkTree RtTable

/-- The version of the head of a node, 0 without a head. -/
def headVersion (heads : Ptr → RtHead) (v : RtVal) : Nat :=
  if v.rth = NULL then 0 else (heads v.rth).rthVersion

/-- The nodes bound the versions below them, and none is marked. -/
structure Versioned (rtt : RtTable) (t : Tree RtVal) : Prop where
  capped : Capped RtVal.version (headVersion rtt.heads) rtt.rttVersion t
  unmarked : ∀ x ∈ t.pre, x.2.marked = false

section
variable {heads heads' : Ptr → RtHead} {a : Nat} {t t' : Tree RtVal} {c : List (Frame RtVal)}
  {p : Ptr} {v : RtVal} {l r : Tree RtVal}

theorem headVersion_null (h0 : v.rth = NULL) : headVersion heads v = 0 := if_pos h0

theorem headVersion_of_zero (h : (heads v.rth).rthVersion = 0) : headVersion heads v = 0 := by
  rw [headVersion, h]
  exact ite_self 0

theorem headVersion_congr (h : ∀ x, (heads' x).rthVersion = (heads x).rthVersion) (v : RtVal) :
    headVersion heads' v = headVersion heads v := by
  rw [headVersion, headVersion, h]

/-- A tree that grows by a head of version 0. -/
theorem Grown.capped {n : Nat} {rth : Ptr} (h : Grown n rth t t')
    (hrth : (heads rth).rthVersion = 0) (ht : Capped RtVal.version (headVersion heads) a t) :
    Capped RtVal.version (headVersion heads) a t' := by
  have hnew : ∀ {v : RtVal}, v.rth = rth → headVersion heads v ≤ v.version := by
    intro v hv
    rw [headVersion_of_zero (hv ▸ hrth)]
    exact Nat.zero_le _
  cases h with
  | root => exact ⟨hnew rfl, Nat.zero_le _, trivial, trivial⟩
  | fill _ =>
    obtain ⟨hc, -, hr, hrest⟩ := capped_plug.mp ht
    exact capped_plug.mpr ⟨hc, hnew rfl, hr, hrest⟩
  | attach =>
    obtain ⟨hc, -⟩ := capped_plug.mp ht
    exact capped_plug.mpr ⟨hc, hnew rfl, Nat.zero_le _, trivial, trivial⟩
  | @above c s pn p v l r =>
    obtain ⟨hc, hnode⟩ := capped_plug.mp ht
    exact capped_plug.mpr ⟨hc, capped_join.mpr ⟨hnew rfl, hnode.2.1, hnode.self, trivial⟩⟩
  | @beside c s pn p pa v l r d _ =>
    obtain ⟨hc, hnode⟩ := capped_plug.mp ht
    refine capped_plug.mpr ⟨hc, capped_join.mpr ⟨?_, hnode.2.1, hnode.self, ?_⟩⟩
    · rw [headVersion_null rfl]
      exact Nat.zero_le _
    · exact ⟨hnew rfl, Nat.zero_le _, trivial, trivial⟩

/-- A removal moves subtrees up only. -/
theorem Pruned.capped {dir : RtTable.Dir} {ps : List Ptr} {ret : Ptr × RtTable.Dir}
    (h : Pruned dir p v c l r t' ps ret)
    (ht : Capped RtVal.version (headVersion heads) a (plug c (.node p v l r))) :
    Capped RtVal.version (headVersion heads) a t' := by
  obtain ⟨hc, hnode⟩ := capped_plug.mp ht
  cases h with
  | keep _ _ =>
    refine capped_plug.mpr ⟨hc, ?_, hnode.2⟩
    rw [headVersion_null rfl]
    exact Nat.zero_le _
  | last => trivial
  | leaf _ => exact capped_plug.mpr ⟨hc, trivial⟩
  | collapse _ _ =>
    obtain ⟨-, hr, hsib, hc⟩ := hc
    exact capped_plug.mpr ⟨hc, hsib.mono hr⟩
  | promote _ heq =>
    rw [heq] at hnode
    obtain ⟨-, hr, hS, -⟩ := capped_join.mp hnode
    exact capped_plug.mpr ⟨hc, hS.mono hr⟩

end

namespace Versioned

variable {rtt rtt' : RtTable} {t : Tree RtVal}

/-- The tree after a step, with its versions. -/
def After (rtt : RtTable) : Prop := ∃ t, Holds rtt.nodes rtt.rttRoot t ∧ Versioned rtt t

/-- The versions stay. -/
theorem of_versions (h : Versioned rtt t) (hversion : rtt'.rttVersion = rtt.rttVersion)
    (hheads : ∀ x, (rtt'.heads x).rthVersion = (rtt.heads x).rthVersion) : Versioned rtt' t where
  capped := by
    rw [hversion]
    exact h.capped.congr fun x _ => headVersion_congr hheads x.2
  unmarked := h.unmarked

theorem of_changes {freed : List Ptr} (h : Versioned rtt t) (hsame : SameChanges rtt rtt' freed) :
    Versioned rtt' t :=
  h.of_versions hsame.version fun x => (hsame.heads x).1

theorem insert {s : TableState} (h : Versioned rtt t) (hwalk : WalkOk ⟨rtt, .outside⟩ t)
    {A : Malloc RtNode} {copyOk : Bool} {rth : Ptr} {addr : Addr} {n : Nat}
    (hallow : VersionOp.Allowed rtt (.insert A copyOk rth addr n))
    (hrun : TableState.exec (.insert A copyOk rth addr n) ⟨rtt, .outside⟩ = .ok s) :
    After s.rtt := by
  obtain ⟨hallow, hzero⟩ := hallow
  obtain ⟨⟨rth', rtt'⟩, hres, hs⟩ := exec_bind_eq_ok.mp hrun
  obtain rfl := Except.ok.inj hs
  have hown := hwalk.insert_own hallow
  obtain ⟨h0, -, hn, -⟩ := hallow
  have hwalk₁ := hwalk.setHead_addr rth addr
  have hsame₁ : SameChanges rtt (writeAddr rtt rth addr) [] := .setHead rtt rfl rfl
  have h₁ := h.of_changes hsame₁
  obtain ⟨freed, hsame, -⟩ := stdRadixInsert_same A copyOk rth n hwalk₁.plain _ hres
  have hzero₁ : (rtt'.heads rth).rthVersion = 0 :=
    ((hsame.heads rth).1.trans (hsame₁.heads rth).1).trans hzero
  have h₂ : Versioned rtt' t := h₁.of_changes hsame
  rcases hwalk₁.shape.insert_outcome A copyOk hwalk₁.plain h0 (rthAddr_writeAddr _ _ _) hn hown _
    hres with heq | ho
  · obtain ⟨-, rfl⟩ := Prod.mk.inj heq
    exact ⟨t, hwalk₁.shape.holds, h₁⟩
  cases ho with
  | present _ _ hs' _ _ => exact ⟨t, hs'.holds, h₂⟩
  | noMemory _ hs' _ _ => exact ⟨t, hs'.holds, h₂⟩
  | added hg hs' _ _ _ =>
    refine ⟨_, hs'.holds, hg.capped hzero₁ h₂.capped, fun x hx => ?_⟩
    rcases hg.mem_pre hx with hx | ⟨hclear, -⟩
    · exact h.unmarked x hx
    · exact hclear
  | replaced _ hin hm _ _ =>
    exact absurd (hm.symm.trans (h.unmarked _ (mem_entries.mp hin).1)) (by decide)

theorem remove {s : TableState} (h : Versioned rtt t) (hwalk : WalkOk ⟨rtt, .outside⟩ t) {rth : Ptr}
    (hallow : VersionOp.Allowed rtt (.remove rth))
    (hrun : TableState.exec (.remove rth) ⟨rtt, .outside⟩ = .ok s) : After s.rtt := by
  have hallow' : TableLabel.Allowed (fun _ => false) ⟨rtt, .outside⟩ (.remove rth) := hallow
  cases hwalk.remove_outcome rfl hallow' s hrun with
  | @removed c rn v l r res heq hv h0 hlocks hmarks hres hs' hout =>
    obtain rfl := hs'
    have hs₁ := hwalk.shape.countRemove
    obtain ⟨t', ps, ret, rtt', hpr, hrun', hs', -⟩ :=
      hs₁.removeNode_spec .walkup heq (hlocks _ (Shape.mem_of_plug heq)) fun f d hc _ _ _ =>
        hlocks _ (heq ▸ hc ▸ Shape.mem_pre_of_frame List.mem_cons_self)
    obtain rfl := Except.ok.inj (hrun'.symm.trans hres)
    obtain ⟨freed, hsame, -⟩ := (countRemove rtt).removeNode_same rn .walkup _ hres
    have h₁ : Versioned (countRemove rtt) t := h.of_changes (.of_eq rfl rfl rfl rfl)
    have h₂ := h₁.of_changes hsame
    have h₃ : Versioned rtt' t' := by
      refine ⟨hpr.capped (heq ▸ h₂.capped), fun x hx => ?_⟩
      rcases hpr.mem_pre (heq ▸ hwalk.shape.holds.nodup) hx with rfl | ⟨hx, -⟩
      · exact h.unmarked (rn, v) (Shape.mem_of_plug heq)
      · exact h.unmarked x (heq ▸ hx)
    unfold RtTable.unlinkChange
    split
    · refine ⟨t', hs'.holds, h₃.of_versions rfl fun x => ?_⟩
      change ((rtt'.setHead rth _).heads x).rthVersion = _
      rw [RtTable.heads_setHead]
      split
      · next hx => rw [hx]
      · rfl
    · exact ⟨t', hs'.holds, h₃⟩
  | marked _ _ _ _ _ _ _ hvisit => cases hvisit

end Versioned

/-! ## Setting a version -/

section
variable {rtt : RtTable} {t : Tree RtVal} {c : List (Frame RtVal)} {p : Ptr} {v : RtVal}
  {l r : Tree RtVal} {ver : Nat}

/-- A node gets a version. -/
theorem WalkOk.setVersion (h : WalkOk ⟨rtt, .outside⟩ t) (heq : plug c (.node p v l r) = t)
    (ver : Nat) :
    WalkOk ⟨{ rtt with
      nodes := rtt.nodes.set p (NodeLayout.cell (l.root NULL) (r.root NULL) (Ctx.top NULL c)
        { v with version := ver }) }, .outside⟩ (plug c (.node p { v with version := ver } l r)) := by
  have hnd : (plug c (.node p v l r)).ptrs.Nodup := heq ▸ h.shape.holds.nodup
  obtain ⟨hlocks, hmarks⟩ := h.placed
  refine ⟨h.shape.setVal heq rfl rfl rfl rfl rfl rfl, h.plain, fun x hx => ?_, fun x hx h0 => ?_⟩
  · rcases mem_pre_of_setVal hnd hx with rfl | ⟨hx, -⟩
    · exact hlocks (p, v) (Shape.mem_of_plug heq)
    · exact hlocks x (heq ▸ hx)
  · rcases mem_pre_of_setVal hnd hx with rfl | ⟨hx, -⟩
    · exact hmarks (p, v) (Shape.mem_of_plug heq) h0
    · exact hmarks x (heq ▸ hx) h0

/-- One turn of the loop. -/
theorem setversionLoop_node (hs : Shape rtt t) (heq : plug c (.node p v l r) = t) (fuel : Nat) :
    setversionLoop ver (fuel + 1) rtt.nodes p = setversionLoop ver fuel
      (rtt.nodes.set p (NodeLayout.cell (l.root NULL) (r.root NULL) (Ctx.top NULL c)
        { v with version := ver })) (Ctx.top NULL c) := by
  have hp : p ≠ NULL := hs.ptr_ne_null (by rw [← heq, mem_ptrs_plug]; simp [ptrs])
  rw [setversionLoop, if_neg hp, hs.deref_cell heq, exec_bind_ok,
    Heap.update_ok (hs.get_node heq), exec_bind_ok]
  rfl

/-- What the loop leaves: a tree whose nodes bound the versions below them. -/
def Raised (rtt : RtTable) (ver : Nat) (nodes : Heap RtNode) : Prop :=
  ∃ t, WalkOk ⟨{ rtt with nodes := nodes }, .outside⟩ t ∧
    Capped RtVal.version (headVersion rtt.heads) ver t ∧ ∀ x ∈ t.pre, x.2.marked = false

/-- The loop raises the path above a subtree that keeps to the version. -/
theorem setversionLoop_spec {a : Nat} (hab : a ≤ ver) : ∀ (c : List (Frame RtVal)) (fuel : Nat)
    (rtt : RtTable) (s : Tree RtVal), c.length < fuel → WalkOk ⟨rtt, .outside⟩ (plug c s) →
    CtxCapped RtVal.version (headVersion rtt.heads) a c →
    Capped RtVal.version (headVersion rtt.heads) ver s →
    (∀ x ∈ (plug c s).pre, x.2.marked = false) →
    Delivers (setversionLoop ver fuel rtt.nodes (Ctx.top NULL c)) (Raised rtt ver) := by
  intro c
  induction c with
  | nil =>
    intro fuel rtt s hfuel hwalk _ hs hmarks
    obtain ⟨fuel, rfl⟩ : ∃ n, fuel = n + 1 := ⟨fuel - 1, by omega⟩
    exact delivers_ok.mpr ⟨s, hwalk, hs, hmarks⟩
  | cons f c ih =>
    intro fuel rtt s hfuel hwalk hc hs hmarks
    obtain ⟨fuel, rfl⟩ : ∃ n, fuel = n + 1 := ⟨fuel - 1, by omega⟩
    have hraised : Capped RtVal.version (headVersion rtt.heads) ver
        (join f.side f.ptr { f.val with version := ver } s f.sib) := hc.raise hab rfl rfl hs
    obtain ⟨l, r, hjoin, hjoin'⟩ : ∃ l r, join f.side f.ptr f.val s f.sib = .node f.ptr f.val l r ∧
        join f.side f.ptr { f.val with version := ver } s f.sib =
          .node f.ptr { f.val with version := ver } l r := by
      cases f.side
      · exact ⟨s, f.sib, rfl, rfl⟩
      · exact ⟨f.sib, s, rfl, rfl⟩
    rw [plug_cons, hjoin] at hwalk hmarks
    rw [hjoin'] at hraised
    rw [Ctx.top_cons, setversionLoop_node hwalk.shape rfl]
    obtain ⟨nodes, hrun, hdone⟩ := ih fuel _ _ (by simpa using hfuel) (hwalk.setVersion rfl ver)
      hc.2.2.2 hraised fun x hx => by
        rcases mem_pre_of_setVal hwalk.shape.holds.nodup hx with rfl | ⟨hx, -⟩
        · exact hmarks (f.ptr, f.val) (Shape.mem_of_plug rfl)
        · exact hmarks x hx
    exact ⟨nodes, hrun, hdone⟩

end

namespace Versioned

variable {rtt rtt' : RtTable} {t : Tree RtVal}

/-- Another version of a head matters to its node only. -/
theorem capped_setHead (h : Versioned rtt t) (hs : Shape rtt t) {c : List (Frame RtVal)} {p : Ptr}
    {v : RtVal} {l r : Tree RtVal} (heq : plug c (.node p v l r) = t) (h0 : v.rth ≠ NULL)
    (hd : RtHead) :
    Capped RtVal.version (headVersion (rtt.setHead v.rth hd).heads) rtt.rttVersion
      (plug c (.node p { v with rth := NULL } l r)) := by
  have hcut : Capped RtVal.version (headVersion rtt.heads) rtt.rttVersion
      (plug c (.node p { v with rth := NULL } l r)) := by
    obtain ⟨hc, -, hnode⟩ := capped_plug.mp (heq ▸ h.capped)
    refine capped_plug.mpr ⟨hc, ?_, hnode⟩
    rw [headVersion_null rfl]
    exact Nat.zero_le _
  refine hcut.congr fun x hx => ?_
  rcases mem_pre_of_setVal (heq ▸ hs.holds.nodup) hx with rfl | ⟨hx, hne⟩
  · rw [headVersion_null rfl, headVersion_null rfl]
  · by_cases hx0 : x.2.rth = NULL
    · rw [headVersion_null hx0, headVersion_null hx0]
    · have hother : x.2.rth ≠ v.rth := by
        intro hsame
        have hx₁ := (hs.linked x (heq ▸ hx)).rtn hx0
        rw [hsame, (hs.linked (p, v) (Shape.mem_of_plug heq)).rtn h0] at hx₁
        exact hne hx₁.symm
      rw [headVersion, headVersion, RtTable.heads_setHead, if_neg hother]

theorem setversion (h : Versioned rtt t) (hwalk : WalkOk ⟨rtt, .outside⟩ t) {rth : Ptr}
    (hallow : VersionOp.Allowed rtt (.setversion rth)) :
    Delivers (rtt.stdRadixSetversion rth) fun res => ∃ t', WalkOk ⟨res.2, .outside⟩ t' ∧
      Versioned res.2 t' := by
  obtain ⟨⟨rn, hof⟩, hwrap⟩ := hallow
  obtain ⟨c, v, l, r, heq, rfl, h0, hrtn⟩ := hwalk.shape.headOf hof
  let ver := rtt.rttVersion + 1
  let hd : RtHead := { rtt.heads v.rth with rthRtn := rn, rthVersion := ver }
  let rtt₁ : RtTable := { rtt.setHead v.rth hd with rttVersion := ver }
  have hwalk₁ : WalkOk ⟨rtt₁, .outside⟩ t := by
    refine hwalk.of_heads rfl rfl rfl fun x => ?_
    change ((rtt.setHead v.rth hd).heads x).rthRtn = _ ∧
      ((rtt.setHead v.rth hd).heads x).rdxRthAddr = _
    rw [RtTable.heads_setHead]
    split
    · next hx => exact hx ▸ ⟨hrtn.symm, rfl⟩
    · exact ⟨rfl, rfl⟩
  have hrn : rn ≠ NULL := hwalk.shape.ptr_ne_null (by rw [← heq, mem_ptrs_plug]; simp [ptrs])
  have hread : rtt.readHead v.rth = .ok (rtt.heads v.rth) := by rw [readHead, if_neg h0]
  have hassert : assertThat (rn != NULL) = .ok () := by rw [bne_iff_ne.mpr hrn, assertThat_true]
  have hmod : (rtt.rttVersion + 1) % 2 ^ 64 = ver := Nat.mod_eq_of_lt hwrap
  unfold stdRadixSetversion
  rw [hread, exec_bind_ok]
  dsimp only
  rw [hrtn, hassert, exec_bind_ok, hmod]
  change Delivers (setversionLoop ver (rtt₁.nodes.bound + 1) rtt₁.nodes rn >>= _) _
  rw [setversionLoop_node hwalk₁.shape heq]
  -- the node itself, with its head
  obtain ⟨hc, hself⟩ := capped_plug.mp (h.capped_setHead hwalk.shape heq h0 hd)
  obtain ⟨-, hcap, hl, hr⟩ := hself
  have hle : v.version ≤ ver := (hcap.trans hc.capAt_le).trans (Nat.le_succ _)
  have hnode : Capped RtVal.version (headVersion rtt₁.heads) ver
      (.node rn { v with version := ver } l r) := by
    refine ⟨?_, le_rfl, hl.mono hle, hr.mono hle⟩
    rw [headVersion, if_neg h0]
    change ((rtt.setHead v.rth hd).heads v.rth).rthVersion ≤ ver
    rw [RtTable.heads_setHead, if_pos rfl]
  have hwalk₂ := hwalk₁.setVersion heq ver
  have hmarks : ∀ x ∈ (plug c (.node rn { v with version := ver } l r)).pre,
      x.2.marked = false := by
    intro x hx
    rcases mem_pre_of_setVal (heq ▸ hwalk.shape.holds.nodup) hx with rfl | ⟨hx, -⟩
    · exact h.unmarked (rn, v) (Shape.mem_of_plug heq)
    · exact h.unmarked x (heq ▸ hx)
  have hlen : c.length < rtt.nodes.bound := by
    have hsize : t.size ≤ rtt.nodes.bound := hwalk.shape.holds.size_le
    have hctx := Ctx.length_le_ptrs c
    rw [← heq, size_plug, size] at hsize
    omega
  refine (setversionLoop_spec (Nat.le_succ _) c rtt₁.nodes.bound _ _ hlen hwalk₂ hc hnode
    hmarks).bind fun nodes hraised => ?_
  obtain ⟨t', hwalk', hcapped, hunmarked⟩ := hraised
  refine delivers_ok.mpr ?_
  dsimp only
  rw [if_neg (Nat.succ_ne_zero _)]
  exact ⟨t', hwalk', hcapped, hunmarked⟩

/-- Every call keeps the versions in order. -/
theorem step {op : VersionOp} (h : Versioned rtt t) (hwalk : WalkOk ⟨rtt, .outside⟩ t)
    (hallow : op.Allowed rtt) (hstep : op.step rtt = some rtt') :
    ∃ t', WalkOk ⟨rtt', .outside⟩ t' ∧ Versioned rtt' t' := by
  -- the calls the walking table knows too
  have hcall : ∀ {label : TableLabel} {s : TableState},
      label.Allowed (fun _ => false) ⟨rtt, .outside⟩ →
      TableState.step label ⟨rtt, .outside⟩ = some s → s.control = .outside → After s.rtt →
      ∃ t', WalkOk ⟨s.rtt, .outside⟩ t' ∧ Versioned s.rtt t' := by
    rintro label ⟨rtt', control⟩ hallow hstep rfl ⟨t', ht', h'⟩
    obtain ⟨t'', hwalk'⟩ := hwalk.step hallow hstep
    obtain rfl := holds_unique ht' hwalk'.shape.holds
    exact ⟨t', hwalk', h'⟩
  cases op with
  | insert A copyOk rth addr n =>
    obtain ⟨s, hs, rfl⟩ := Option.map_eq_some_iff.mp hstep
    obtain ⟨-, hrun⟩ := exec_of_step hs
    obtain ⟨res, -, hcontrol⟩ := exec_bind_eq_ok.mp hrun
    exact hcall hallow.1 hs (Except.ok.inj hcontrol ▸ rfl) (h.insert hwalk hallow hrun)
  | remove rth =>
    obtain ⟨s, hs, rfl⟩ := Option.map_eq_some_iff.mp hstep
    obtain ⟨-, hrun⟩ := exec_of_step hs
    obtain ⟨res, -, hcontrol⟩ := exec_bind_eq_ok.mp hrun
    have hallow' : TableLabel.Allowed (fun _ => false) ⟨rtt, .outside⟩ (.remove rth) := hallow
    exact hcall hallow' hs (Except.ok.inj hcontrol ▸ rfl) (h.remove hwalk hallow hrun)
  | setversion rth =>
    obtain ⟨res, hres, hdone⟩ := h.setversion hwalk hallow
    change (rtt.stdRadixSetversion rth).toOption.map Prod.snd = some rtt' at hstep
    rw [hres] at hstep
    obtain rfl := Option.some.inj hstep
    exact hdone

/-- What holds in every table that the calls lead to from a new one. -/
theorem of_reached {rtt₀ : RtTable} (hnew : NewTable rtt₀)
    (hreached : OpxCommonUtils.Reached VersionOp.step (fun rtt op => op.Allowed rtt) rtt₀ rtt) :
    ∃ t, WalkOk ⟨rtt, .outside⟩ t ∧ Versioned rtt t := by
  refine hreached.invariant (P := fun rtt => ∃ t, WalkOk ⟨rtt, .outside⟩ t ∧ Versioned rtt t)
    ⟨.nil, hnew.walkOk, trivial, by simp [pre]⟩ ?_
  rintro rtt₁ rtt₂ op ⟨t, hwalk, h⟩ hallow hstep
  exact h.step hwalk hallow hstep

end Versioned

end OpxCommonUtils.Radix
