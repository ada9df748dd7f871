import OpxCommonUtils.Radix.Proofs.WalkReturn

/-!
# The books of a table across deferred deletion

`rtt_routes` and `rtt_inodes` tell the heads and the nodes, and a node that is marked still has its
head (`Booked`). Two branches of the source break this: `_std_radix_remove` of a node that keeps its
place below its two children takes the head and leaves the mark, and an insertion that replaces a
marked head counts a route that was never given up. In runs without them no mark, no lock and no
wrong count is left when a walk is over (`versionwalk_books`).
-/

namespace OpxCommonUtils.Radix

open Tree Trie LinkTree RtTable

/-- The number of heads in a tree. -/
def headCount (t : Tree RtVal) : Nat := t.pre.countP fun x => x.2.rth != NULL

/-- Outside walks: no node is marked or locked, and the counters tell the heads and the nodes. -/
structure Bookkeeping (rtt : RtTable) (t : Tree RtVal) : Prop where
  marks : ∀ x ∈ t.pre, x.2.marked = false
  locks : ∀ x ∈ t.pre, x.2.lock = 0
  routes : rtt.rttRoutes = headCount t
  inodes : rtt.rttInodes = t.size

/-- The node that the next round of a walk looks at on its way up. -/
def TableState.comesUpTo (s : TableState) : Option Ptr :=
  match s.control with
  | .loop w => if w.lcnt ≠ 0 ∧ w.dir = .walkup then some w.rtn else none
  | .climb _ y => some y
  | .outside | .callback _ => none

/-- A walk comes up to a marked node that has both its children (`std_radix.c:1098-1119`). -/
def LeavesMark (s : TableState) : TableLabel → Prop
  | .round => ∃ p ∈ s.comesUpTo, ∃ n ∈ s.rtt.nodes.get p,
      n.rtnLock = 0 ∧ n.marked = true ∧ n.rtnLeft ≠ NULL ∧ n.rtnRight ≠ NULL
  | _ => False

/-- A callback inserts for the prefix of a head it has removed, and the key of the new head can be
prepared (`std_radix.c:973-996`). -/
def RefillsMarked (s : TableState) (l : TableLabel) : Prop :=
  match s.control, l with
  | .callback w, .insert _ copyOk rth addr _ => (∃ n ∈ s.rtt.nodes.get w.rtn, n.marked = true) ∧
      ((writeAddr s.rtt rth addr).prepareKey copyOk rth).toOption.map Prod.fst = some true
  | _, _ => False

instance (s : TableState) : (l : TableLabel) → Decidable (LeavesMark s l)
  | .round => inferInstanceAs (Decidable (∃ p ∈ s.comesUpTo, ∃ n ∈ s.rtt.nodes.get p,
      n.rtnLock = 0 ∧ n.marked = true ∧ n.rtnLeft ≠ NULL ∧ n.rtnRight ≠ NULL))
  | .insert .. | .remove _ | .appendtochangelist _ | .versionwalk .. | .callbackReturn _ =>
    .isFalse not_false

instance : (s : TableState) → (l : TableLabel) → Decidable (RefillsMarked s l)
  | ⟨rtt, .callback w⟩, .insert _ copyOk rth addr _ => inferInstanceAs (Decidable
    ((∃ n ∈ rtt.nodes.get w.rtn, n.marked = true) ∧
      ((writeAddr rtt rth addr).prepareKey copyOk rth).toOption.map Prod.fst = some true))
  | ⟨_, .callback _⟩, .remove _ | ⟨_, .callback _⟩, .appendtochangelist _
  | ⟨_, .callback _⟩, .versionwalk .. | ⟨_, .callback _⟩, .callbackReturn _
  | ⟨_, .callback _⟩, .round | ⟨_, .outside⟩, _ | ⟨_, .loop _⟩, _ | ⟨_, .climb ..⟩, _ =>
    .isFalse not_false

/-! ## Trees and counts -/

section
variable {rtt rtt' : RtTable} {t t' : Tree RtVal} {c : List (Frame RtVal)} {p : Ptr} {v : RtVal}
  {l r : Tree RtVal}

/-- Each head of a table is an entry. -/
theorem Shape.length_entries (hs : Shape rtt t) :
    (entries (view rtt.heads) t).length = headCount t := by
  unfold entries headCount
  rw [List.length_filterMap_eq_countP]
  refine List.countP_congr fun x hx => ?_
  have hkey := key_view_eq_none (hs.linked x hx)
  rw [Option.isSome_map, Option.isSome_iff_ne_none, ne_eq, hkey, bne_iff_ne]

theorem headCount_setVal {v' : RtVal} (hrth : v'.rth = v.rth) :
    headCount (plug c (.node p v' l r)) = headCount (plug c (.node p v l r)) := by
  unfold headCount
  rw [pre_plug, pre_plug]
  simp [pre, List.countP_cons, hrth]

/-- The node of a removal that keeps its place has both its children. -/
theorem Pruned.children_or_freed {dir : RtTable.Dir} {ps : List Ptr} {ret : Ptr × RtTable.Dir}
    (h : Pruned dir p v c l r t' ps ret) : (l ≠ .nil ∧ r ≠ .nil) ∨ p ∈ ps := by
  cases h with
  | keep hl hr => exact .inl ⟨hl, hr⟩
  | last | leaf _ | promote _ _ => exact .inr (List.mem_singleton_self p)
  | collapse _ _ => exact .inr (by simp)

/-- The counters tell the heads and the nodes, and a marked node still has its head. -/
structure Booked (rtt : RtTable) (t : Tree RtVal) : Prop where
  headed : ∀ x ∈ t.pre, x.2.marked = true → x.2.rth ≠ NULL
  routes : rtt.rttRoutes = headCount t
  inodes : rtt.rttInodes = t.size

namespace Booked

/-- The tree stays, and so do the counters. -/
theorem of_same (h : Booked rtt t) (hroutes : rtt'.rttRoutes = rtt.rttRoutes)
    (hinodes : rtt'.rttInodes = rtt.rttInodes) : Booked rtt' t :=
  ⟨h.headed, hroutes.trans h.routes, hinodes.trans h.inodes⟩

/-- The books of the tree that a step leaves. -/
def After (s' : TableState) : Prop :=
  ∃ t', Holds s'.rtt.nodes s'.rtt.rttRoot t' ∧ Booked s'.rtt t'

/-- Flags, lock and version of a node change. -/
theorem setVal (h : Booked rtt t) (ht : Holds rtt.nodes rtt.rttRoot t)
    (heq : plug c (.node p v l r) = t) (v' : RtVal) (hrth : v'.rth = v.rth)
    (hmark : v'.marked = true → v.marked = true ∨ v.rth ≠ NULL) (control : Control) :
    After ⟨{ rtt with
      nodes := rtt.nodes.set p (NodeLayout.cell (l.root NULL) (r.root NULL) (Ctx.top NULL c) v') },
      control⟩ := by
  subst heq
  refine ⟨_, ht.setVal v', fun x hx hm => ?_, ?_, ?_⟩
  · rcases mem_pre_of_setVal ht.nodup hx with rfl | ⟨hx, -⟩
    · change v'.rth ≠ NULL
      rw [hrth]
      rcases hmark hm with hm | h0
      · exact h.headed (p, v) (Shape.mem_of_plug rfl) hm
      · exact h0
    · exact h.headed x hx hm
  · exact h.routes.trans (headCount_setVal hrth).symm
  · refine h.inodes.trans ?_
    rw [size_plug, size_plug]
    rfl

/-- A head is taken from its node, which goes or keeps its place without a mark. -/
theorem removeNode (h : Booked rtt t) (hs : Shape rtt t) (hlocks : Unlocked t)
    (heq : plug c (.node p v l r) = t) (h0 : v.rth ≠ NULL)
    (hkeep : v.marked = true → l = .nil ∨ r = .nil) (dir : RtTable.Dir) :
    Ensures (rtt.removeNode p dir) fun res => ∃ t', Shape res.2.2 t' ∧ Booked res.2.2 t' := by
  intro res hrun
  have hmem : (p, v) ∈ t.pre := Shape.mem_of_plug heq
  obtain ⟨t', ps, ret, rtt', hpr, hres, hs', hentries, hfreed, hroutes⟩ :=
    hs.removeNode_spec dir heq (hlocks _ hmem) fun f d hc _ _ _ =>
      hlocks _ (heq ▸ hc ▸ Shape.mem_pre_of_frame List.mem_cons_self)
  rw [hres] at hrun
  obtain rfl := Except.ok.inj hrun
  refine ⟨t', hs', fun x hx hm => ?_, ?_, ?_⟩
  · have hnd : (plug c (.node p v l r)).ptrs.Nodup := heq ▸ hs.holds.nodup
    rcases hpr.mem_pre hnd hx with rfl | ⟨hx, -⟩
    · exfalso
      rcases hpr.children_or_freed with ⟨hl, hr⟩ | hgone
      · exact (hkeep hm).elim hl hr
      · -- a freed node is not in the tree that is left
        refine (List.nodup_append'.mp (hpr.ptrs_perm.nodup_iff.mp hnd)).2.2 hgone ?_
        rw [← map_fst_pre]
        exact List.mem_map_of_mem (f := Prod.fst) hx
    · exact h.headed x (heq ▸ hx) hm
  · obtain ⟨a, ha⟩ := (hs.linked (p, v) hmem).addr h0
    have hcount := (heq ▸ hpr.entries_perm rtt.heads).length_eq
    rw [key_view_of_addr h0 ha, List.length_append, hs.length_entries, ← hentries,
      hs'.length_entries] at hcount
    change headCount t = 1 + headCount t' at hcount
    rw [hroutes, h.routes, hcount, ulongPred, if_neg (by omega)]
    omega
  · have hsize := hpr.size_eq
    rw [heq, ← h.inodes] at hsize
    have hinodes := hfreed.inodes (by omega)
    change rtt'.rttInodes = t'.size
    omega

/-- An insertion that replaces no marked head keeps the books. -/
theorem inserted (h : Booked rtt t) (hs : Shape rtt t) {A : Malloc RtNode} {rth : Ptr}
    {K : List Bool} {n : Nat} {res : Ptr × RtTable}
    (hnew : ∀ x, (K, x) ∈ entries (view rtt.heads) t → x.2.marked = false)
    (ho : InsertOutcome rtt t A rth K n (.ok res)) :
    ∃ t', Shape res.2 t' ∧ Booked res.2 t' := by
  cases ho with
  | present _ _ hs' _ hcount => exact ⟨t, hs', h.of_same hcount.routes hcount.inodes⟩
  | noMemory _ hs' _ hcount => exact ⟨t, hs', h.of_same hcount.routes hcount.inodes⟩
  | @added rtt' t' _ _ hg hs' _ hperm hcount =>
    refine ⟨t', hs', fun x hx hm => ?_, ?_, ?_⟩
    · rcases hg.mem_pre hx with hx | ⟨hclear, -⟩
      · exact h.headed x hx hm
      · exact absurd (hm.symm.trans hclear) (by decide)
    · have hlen := hperm.length_eq
      rw [hs'.length_entries, List.length_cons, hs.length_entries] at hlen
      exact hcount.routes.trans (by rw [h.routes, hlen])
    · have hsize := hg.size_le
      have hinodes := hcount.inodes
      rw [h.inodes] at hinodes
      change rtt'.rttInodes = t'.size
      omega
  | @replaced _ _ p v _ _ _ hin hm _ _ => exact absurd (hm.symm.trans (hnew _ hin)) (by decide)

/-- The step of an insertion. -/
theorem insert {marker : Ptr → Bool} {s s' : TableState} (h : Booked s.rtt t) (hwalk : WalkOk s t)
    {A : Malloc RtNode} {copyOk : Bool} {rth : Ptr} {addr : Addr} {n : Nat}
    (hacts : s.userActs = true)
    (hallow : TableLabel.Allowed marker s (.insert A copyOk rth addr n))
    (hnot : ¬ RefillsMarked s (.insert A copyOk rth addr n))
    (hrun : s.exec (.insert A copyOk rth addr n) = .ok s') : After s' := by
  obtain ⟨⟨rth', rtt'⟩, hres, hs'⟩ := exec_bind_eq_ok.mp hrun
  obtain rfl := Except.ok.inj hs'
  have hown := hwalk.insert_own hallow
  obtain ⟨h0, -, hn, -, hvisit⟩ := hallow
  have hwalk₁ := hwalk.setHead_addr rth addr
  have hs₁ := hwalk₁.shape
  have h₁ : Booked (writeAddr s.rtt rth addr) t := h.of_same rfl rfl
  have haddr := rthAddr_writeAddr s.rtt rth addr
  obtain ⟨⟨ok, rtt₀⟩, hprep, hrest⟩ := exec_bind_eq_ok.mp hres
  cases ok with
  | false =>
    -- the key cannot be copied
    rcases hs₁.prepareKey_spec copyOk h0 haddr hn hown _ hprep with heq | ⟨hok, -⟩
    · obtain ⟨-, rfl⟩ := Prod.mk.inj heq
      obtain ⟨-, rfl⟩ := Prod.mk.inj (Except.ok.inj hrest)
      exact ⟨t, hs₁.holds, h₁⟩
    · cases hok
  | true =>
    rcases hs₁.insert_outcome A copyOk hwalk.plain h0 haddr hn hown _ hres with heq | ho
    · obtain ⟨-, rfl⟩ := Prod.mk.inj heq
      exact ⟨t, hs₁.holds, h₁⟩
    suffices hnew : ∀ x : Ptr × RtVal,
        (firstBits (bitAt ((writeAddr s.rtt rth addr).queryAddr addr)) n, x) ∈
          entries (view (writeAddr s.rtt rth addr).heads) t → x.2.marked = false by
      obtain ⟨t', hs', h'⟩ := h₁.inserted hs₁ hnew ho
      exact ⟨t', hs'.holds, h'⟩
    intro x hx
    obtain ⟨hmem, hkey⟩ := mem_entries.mp hx
    have hx0 : x.2.rth ≠ NULL := by
      intro hx0
      simp [view, hx0] at hkey
    obtain ⟨rtt, control⟩ := s
    cases control with
    | outside => exact hwalk.placed.2 x hmem hx0
    | loop _ | climb _ _ => cases hacts
    | callback w =>
      -- the entry is that of the visited node
      obtain ⟨c, v, l, r, heq, -, hv0, -⟩ := hwalk.placed
      obtain ⟨m, hm, hstore⟩ := hvisit w rfl
      rw [hwalk.shape.get_node heq] at hm
      obtain rfl := Option.some.inj hm
      have hin := mem_entries.mpr ⟨Shape.mem_of_plug heq,
        ((hstore.writeAddr rth).key ⟨rfl, rfl⟩ hv0).2⟩
      obtain rfl := hs₁.wf.entry_unique hx hin
      have hprep' : (writeAddr rtt rth addr).prepareKey copyOk rth = .ok (true, rtt₀) := hprep
      by_contra hmark
      have hmark' : v.marked = true := by simpa using hmark
      exact hnot ⟨⟨_, hwalk.shape.get_node heq, hmark'⟩, by rw [hprep']; rfl⟩

/-- The step of a removal. -/
theorem remove {marker : Ptr → Bool} {s s' : TableState} (h : Booked s.rtt t) (hwalk : WalkOk s t)
    {rth : Ptr} (hacts : s.userActs = true) (hallow : TableLabel.Allowed marker s (.remove rth))
    (hrun : s.exec (.remove rth) = .ok s') : After s' := by
  have h₁ : Booked (countRemove s.rtt) t := h.of_same rfl rfl
  cases hwalk.remove_outcome hacts hallow s' hrun with
  | @removed c rn v l r res heq hv h0 hlocks hmarks hres hs' _ =>
    obtain rfl := hs'
    have hv0 : v.rth ≠ NULL := hv.trans_ne h0
    obtain ⟨t', hs₂, h₂⟩ := h₁.removeNode hwalk.shape.countRemove hlocks heq hv0 (fun hm => by
      rw [hmarks _ (Shape.mem_of_plug heq) hv0] at hm
      cases hm) _ _ hres
    unfold RtTable.unlinkChange
    split
    · exact ⟨t', hs₂.holds, h₂.of_same rfl rfl⟩
    · exact ⟨t', hs₂.holds, h₂⟩
  | @marked w c v l r heq _ hv h0 _ _ hs' _ =>
    obtain rfl := hs'
    exact h₁.setVal hwalk.shape.holds heq v.mark rfl (fun _ => .inr (hv.trans_ne h0)) _

/-! ### Rounds of a walk -/

variable {s s' : TableState}

/-- A round takes the head of a marked node on the way up. -/
theorem roundRemoves (h : Booked s.rtt t) (hs : Shape s.rtt t) (hlocks : Unlocked t)
    (heq : plug c (.node p v l r) = t) (hmark : v.marked = true) (hup : s.comesUpTo = some p)
    (hnot : ¬ LeavesMark s .round) (dir : RtTable.Dir)
    (control : Ptr × RtTable.Dir × RtTable → Control) :
    Ensures (s.rtt.removeNode p dir >>= fun res => .ok (TableState.mk res.2.2 (control res)))
      After := by
  have hmem : (p, v) ∈ t.pre := Shape.mem_of_plug heq
  refine .bind (h.removeNode hs hlocks heq (h.headed _ hmem hmark) (fun _ => ?_) dir) ?_
  · by_contra hboth
    obtain ⟨hl, hr⟩ := not_or.mp hboth
    refine hnot ⟨p, hup, _, hs.get_node heq, hlocks _ hmem, hmark, ?_, ?_⟩
    · exact (hs.root_of_subtree (c := ⟨.left, p, v, r⟩ :: c) heq).not.mpr hl
    · exact (hs.root_of_subtree (c := ⟨.right, p, v, l⟩ :: c) heq).not.mpr hr
  · rintro res ⟨t', hs', h'⟩
    exact ensures_ok.mpr ⟨t', hs'.holds, h'⟩

theorem loopRound {w : VersionWalk} (h : Booked rtt t) (hwalk : WalkOk ⟨rtt, .loop w⟩ t)
    (hnot : ¬ LeavesMark ⟨rtt, .loop w⟩ .round) :
    Ensures (VersionWalk.loopRound rtt w) After := by
  obtain ⟨hlocks, hat⟩ := hwalk.placed
  have hs := hwalk.shape
  have hsame : ∀ control, After ⟨rtt, control⟩ := fun control => ⟨t, hs.holds, h⟩
  unfold VersionWalk.loopRound
  by_cases h0 : w.rtn = NULL
  · rw [if_pos h0]
    exact ensures_ok.mpr (hsame _)
  by_cases hcnt : w.lcnt = 0
  · rw [if_neg h0, if_pos hcnt]
    exact ensures_ok.mpr (hsame _)
  rw [if_neg h0, if_neg hcnt]
  generalize hrtn : w.rtn = rtn at hat h0
  cases hat with
  | gone => exact absurd rfl h0
  | @node c _ v l r heq _ =>
    have hcell := hs.deref_cell heq
    cases hdir : w.dir with
    | walkdown =>
      dsimp only
      rw [VersionWalk.walkDown, hrtn, hcell, exec_bind_ok]
      split
      · exact ensures_ok.mpr (hsame _)
      split
      · -- the callback's node is locked
        rw [Heap.update_ok (hs.get_node heq), exec_bind_ok]
        exact ensures_ok.mpr (h.setVal hs.holds heq { v with lock := v.lock + 1 } rfl .inl _)
      · exact ensures_ok.mpr (hsame _)
    | walkright =>
      refine .bindAny fun n => ?_
      split
      · exact ensures_ok.mpr (hsame _)
      · exact ensures_ok.mpr (hsame _)
    | walkup =>
      dsimp only
      rw [VersionWalk.walkUp, hrtn, hcell, exec_bind_ok]
      split
      · next hgo =>
        have hup : TableState.comesUpTo ⟨rtt, .loop w⟩ = some rtn := by
          rw [← hrtn]
          exact if_pos ⟨hcnt, hdir⟩
        exact h.roundRemoves hs hlocks heq (Bool.and_eq_true _ _ ▸ hgo).2 hup hnot _ _
      · exact .bindAny fun _ => ensures_ok.mpr (hsame _)

theorem climbRound {w : VersionWalk} {y : Ptr} (h : Booked rtt t)
    (hwalk : WalkOk ⟨rtt, .climb w y⟩ t) (hnot : ¬ LeavesMark ⟨rtt, .climb w y⟩ .round) :
    Ensures (VersionWalk.climbRound rtt w y) After := by
  obtain ⟨hlocks, h0, hat⟩ := hwalk.placed
  have hs := hwalk.shape
  cases hat with
  | gone => exact absurd rfl h0
  | @node c _ v l r heq _ =>
    rw [VersionWalk.climbRound, hs.deref_cell heq, exec_bind_ok]
    split
    · next hgo =>
      exact h.roundRemoves hs hlocks heq (Bool.and_eq_true _ _ ▸ hgo).2 rfl hnot _ _
    · exact ensures_ok.mpr ⟨t, hs.holds, h⟩

/-! ### Steps and runs -/

theorem callbackReturn {w : VersionWalk} {ret : Int} (h : Booked rtt t)
    (hwalk : WalkOk ⟨rtt, .callback w⟩ t)
    (hrun : VersionWalk.callbackReturn rtt w ret = .ok s') : After s' := by
  obtain ⟨c, v, l, r, heq, -⟩ := hwalk.placed
  rw [VersionWalk.callbackReturn_eq hwalk.shape heq] at hrun
  obtain rfl := Except.ok.inj hrun
  exact h.setVal hwalk.shape.holds heq { v with lock := v.lock - 1 } rfl .inl _

/-- Appending to the change list leaves the nodes and their counters alone. -/
theorem append (h : Booked rtt t) (ht : Holds rtt.nodes rtt.rttRoot t) (rth : Ptr)
    (control : Control) :
    Ensures (rtt.stdRadicalAppendtochangelist rth) fun res => After ⟨res.2, control⟩ := by
  unfold stdRadicalAppendtochangelist unlistHead
  refine .bindAny fun hd => .bindAny fun _ =>
    .bind (P := fun rtt' => ∃ l, rtt' = rtt.relink l) ?_ ?_
  · split
    · exact .bindAny fun _ => ensures_ok.mpr ⟨_, rfl⟩
    · exact ensures_ok.mpr ⟨_, rfl⟩
  · rintro _ ⟨l, rfl⟩
    refine ensures_ok.mpr ⟨t, ?_⟩
    dsimp only
    split
    · exact ⟨ht, h.of_same rfl rfl⟩
    · exact ⟨ht, h.of_same rfl rfl⟩

/-- Every step that leaves no mark behind and replaces no marked head keeps the books. -/
theorem step {marker : Ptr → Bool} {label : TableLabel} (h : Booked s.rtt t) (hwalk : WalkOk s t)
    (hallow : label.Allowed marker s) (hmark : ¬ LeavesMark s label)
    (hrefill : ¬ RefillsMarked s label) (hstep : TableState.step label s = some s') : After s' := by
  obtain ⟨henabled, hrun⟩ := exec_of_step hstep
  obtain ⟨rtt, control⟩ := s
  cases label with
  | insert A copyOk rth addr n => exact h.insert hwalk henabled hallow hrefill hrun
  | remove rth => exact h.remove hwalk henabled hallow hrun
  | appendtochangelist rth =>
    obtain ⟨⟨ver, rtt'⟩, happend, hs'⟩ := exec_bind_eq_ok.mp hrun
    obtain rfl := Except.ok.inj hs'
    exact h.append hwalk.shape.holds rth control _ happend
  | versionwalk rth walkFn cnt minVer maxVer =>
    suffices hstart : Ensures (VersionWalk.start rtt rth walkFn cnt minVer maxVer) After from
      hstart s' hrun
    have hsame : ∀ control, After ⟨rtt, control⟩ := fun control => ⟨t, hwalk.shape.holds, h⟩
    unfold VersionWalk.start
    dsimp only
    split
    · exact ensures_ok.mpr (hsame _)
    · split
      · exact ensures_ok.mpr (hsame _)
      · exact ensures_ok.mpr (hsame _)
  | callbackReturn ret =>
    cases control with
    | callback w => exact h.callbackReturn hwalk hrun
    | outside | loop _ | climb _ _ => cases henabled
  | round =>
    cases control with
    | loop w => exact h.loopRound hwalk hmark s' hrun
    | climb w y => exact h.climbRound hwalk hmark s' hrun
    | outside | callback _ => cases henabled

/-- Outside walks no node with a head is marked, and so no node at all. -/
theorem bookkeeping (h : Booked s.rtt t) (hwalk : WalkOk s t) (hout : s.control = .outside) :
    Bookkeeping s.rtt t := by
  have hplaced := hwalk.placed
  rw [hout] at hplaced
  obtain ⟨hlocks, hmarks⟩ := hplaced
  refine ⟨fun x hx => ?_, hlocks, h.routes, h.inodes⟩
  by_contra hm
  have hm' : x.2.marked = true := by simpa using hm
  rw [hmarks x hx (h.headed x hx hm')] at hm'
  cases hm'

end Booked

end

/-- In every run in which no walk comes up to a marked node with two children and no callback
replaces a head that it has removed, the books are right whenever no walk is in progress. -/
theorem versionwalk_books {marker : Ptr → Bool} {rtt₀ : RtTable} (hnew : NewTable rtt₀)
    (hroutes : rtt₀.rttRoutes = 0) (hinodes : rtt₀.rttInodes = 0) {s : TableState}
    (hreached : OpxCommonUtils.Reached TableState.step
      (fun s l => l.Allowed marker s ∧ ¬ LeavesMark s l ∧ ¬ RefillsMarked s l)
      ⟨rtt₀, .outside⟩ s) (hout : s.control = .outside) :
    ∃ t, Shape s.rtt t ∧ Bookkeeping s.rtt t := by
  have hbooked : ∃ t, WalkOk s t ∧ Booked s.rtt t := by
    refine hreached.invariant (P := fun s => ∃ t, WalkOk s t ∧ Booked s.rtt t)
      ⟨.nil, hnew.walkOk, by simp [pre], hroutes, hinodes⟩ ?_
    rintro s₁ s₂ label ⟨t, hwalk, hbooked⟩ ⟨hallow, hmark, hrefill⟩ hstep
    obtain ⟨t', hwalk'⟩ := hwalk.step hallow hstep
    obtain ⟨t'', ht'', hbooked'⟩ := hbooked.step hwalk hallow hmark hrefill hstep
    obtain rfl := holds_unique ht'' hwalk'.shape.holds
    exact ⟨t'', hwalk', hbooked'⟩
  obtain ⟨t, hwalk, hbooked⟩ := hbooked
  exact ⟨t, hwalk.shape, hbooked.bookkeeping hwalk hout⟩

/-- The callback of a walk leaves the head of a branching node, and removes that of a leaf. -/
def sampleKeeps : List TableLabel :=
  [.insert .above true 10 (fun _ => 0x40) 1, .insert .above true 11 (fun _ => 0) 2,
    .insert .above true 12 (fun _ => 0x40) 2, .versionwalk NULL true 0 0 9, .round,
    .callbackReturn 0, .round, .remove 11, .callbackReturn 1, .round, .round, .round]

/-- Two heads and two nodes are left. -/
theorem versionwalk_books_keeps : ∃ s, runSteps TableState.step sampleKeeps sampleNew = some s ∧
    s.rtt.rttRoutes = 2 ∧ s.rtt.rttInodes = 2 ∧ ∃ t, Shape s.rtt t ∧ Bookkeeping s.rtt t := by
  have hrun : (runSteps TableState.step sampleKeeps sampleNew).map (fun s =>
      (s.control, s.rtt.rttRoutes, s.rtt.rttInodes)) = some (Control.outside, 2, 2) := by
    decide +kernel
  obtain ⟨s, hs, hend⟩ := Option.map_eq_some_iff.mp hrun
  obtain ⟨hout, hcounts⟩ := Prod.mk.inj hend
  obtain ⟨hroutes, hinodes⟩ := Prod.mk.inj hcounts
  have hreached := OpxCommonUtils.Reached.runSteps_of_allMeet
    (fun s l => TableLabel.Allowed (fun _ => false) s l ∧ ¬ LeavesMark s l ∧ ¬ RefillsMarked s l)
    sampleKeeps .init (by decide +kernel) hs
  exact ⟨s, hs, hroutes, hinodes,
    versionwalk_books (newTable_create 32 true fun _ => default) rfl rfl hreached hout⟩

theorem headCount_le_size (t : Tree RtVal) : headCount t ≤ t.size := by
  rw [← length_ptrs, ← map_fst_pre, List.length_map]
  exact List.countP_le_length

/-- The callback of a walk removes the head of a branching node and stops. -/
def sampleMarksGlue : List TableLabel :=
  [.insert .above true 10 (fun _ => 0x40) 1, .insert .above true 11 (fun _ => 0) 2,
    .insert .above true 12 (fun _ => 0x40) 2, .versionwalk NULL true 0 0 9, .round, .remove 10,
    .callbackReturn 1, .round, .round, .round]

/-- The callback of a walk removes a head, inserts another for its prefix and stops. -/
def sampleCountsTwice : List TableLabel :=
  [.insert .above true 10 (fun _ => 0) 8, .versionwalk NULL true 0 0 9, .round, .remove 10,
    .insert .above true 11 (fun _ => 0) 8, .callbackReturn 1, .round, .round]

/-- A user who keeps to the interface has led a new table to `s`, no walk is in progress, and the
books are wrong. -/
def Spoiled (s : TableState) : Prop :=
  OpxCommonUtils.Reached TableState.step (fun s l => TableLabel.Allowed (fun _ => false) s l)
    sampleNew s ∧ s.control = .outside ∧ ¬ ∃ t, Shape s.rtt t ∧ Bookkeeping s.rtt t

/-- After one of these walks a node without a head is marked, after the other one two routes are
counted for one node. -/
theorem versionwalk_spoils_books :
    (∃ s, runSteps TableState.step sampleMarksGlue sampleNew = some s ∧ Spoiled s) ∧
      ∃ s, runSteps TableState.step sampleCountsTwice sampleNew = some s ∧ Spoiled s := by
  constructor
  · have hrun : (runSteps TableState.step sampleMarksGlue sampleNew).map (fun s =>
        (s.control, (s.rtt.nodes.get 1).map RtNode.marked)) = some (Control.outside, some true) := by
      decide +kernel
    obtain ⟨s, hs, hend⟩ := Option.map_eq_some_iff.mp hrun
    obtain ⟨hout, hnode⟩ := Prod.mk.inj hend
    obtain ⟨n, hn, hmark⟩ := Option.map_eq_some_iff.mp hnode
    have hreached := OpxCommonUtils.Reached.runSteps_of_allMeet
      (fun s l => TableLabel.Allowed (fun _ => false) s l) _ .init (by decide +kernel) hs
    refine ⟨s, hs, hreached, hout, ?_⟩
    rintro ⟨t, hshape, hbooks⟩
    obtain ⟨c, v, l, r, heq, rfl⟩ := hshape.locate hn
    have hclear : v.marked = false := hbooks.marks (1, v) (Shape.mem_of_plug heq)
    exact absurd (hclear.symm.trans hmark) (by decide)
  · have hrun : (runSteps TableState.step sampleCountsTwice sampleNew).map (fun s =>
        (s.control, s.rtt.rttRoutes, s.rtt.rttInodes)) = some (Control.outside, 2, 1) := by
      decide +kernel
    obtain ⟨s, hs, hend⟩ := Option.map_eq_some_iff.mp hrun
    obtain ⟨hout, hcounts⟩ := Prod.mk.inj hend
    obtain ⟨hroutes, hinodes⟩ := Prod.mk.inj hcounts
    have hreached := OpxCommonUtils.Reached.runSteps_of_allMeet
      (fun s l => TableLabel.Allowed (fun _ => false) s l) _ .init (by decide +kernel) hs
    refine ⟨s, hs, hreached, hout, ?_⟩
    rintro ⟨t, -, hbooks⟩
    have hle := headCount_le_size t
    rw [← hbooks.routes, ← hbooks.inodes] at hle
    omega

end OpxCommonUtils.Radix
