import OpxCommonUtils.Misc.Steps
import OpxCommonUtils.Radix.Proofs.WalkUser

/-!
# The change list and the tree

A head on the change list is that of an unmarked node, as long as no head is removed that is on
the list: `std_radix_remove` hands a head over before it unlinks it, and the two other ways out of
the tree, through the mark of a visited node, never unlink it.
-/

namespace OpxCommonUtils.Radix

open Tree Trie LinkTree RtTable

/-- The step does not remove a head that is on the change list. -/
def TableLabel.Unlisted (s : TableState) : TableLabel → Prop
  | .remove rth => rth ∉ s.rtt.rttClhead
  | _ => True

instance (s : TableState) : (l : TableLabel) → Decidable (l.Unlisted s)
  | .remove rth => inferInstanceAs (Decidable (rth ∉ s.rtt.rttClhead))
  | .insert .. | .appendtochangelist _ | .versionwalk .. | .callbackReturn _ | .round =>
    .isTrue trivial

/-- The heads of the tree are no markers, and those on the change list are marked there and belong
to unmarked nodes. -/
structure MembersOk (marker : Ptr → Bool) (s : TableState) (t : Tree RtVal) : Prop where
  walk : WalkOk s t
  heads : ∀ x ∈ t.pre, x.2.rth ≠ NULL → marker x.2.rth = false
  listed : ∀ h ∈ s.rtt.rttClhead, marker h = false → (s.rtt.heads h).incl = true ∧
    ∃ x ∈ t.pre, x.2.rth = h ∧ h ≠ NULL ∧ x.2.marked = false

section
variable {marker : Ptr → Bool} {s s' : TableState} {t : Tree RtVal}

/-- The heads that go over to `rtt_rmfree` in a step are not on the list. -/
def HandsOver (s s' : TableState) : Prop :=
  ∃ freed, s'.rtt.rmfreed = s.rtt.rmfreed ++ freed ∧ ∀ x ∈ freed, x ∉ s.rtt.rttClhead

/-- A marked head is not on the list. -/
theorem MembersOk.not_listed (h : MembersOk marker s t) {x : Ptr} (hx : MarkedHead s.rtt x) :
    x ∉ s.rtt.rttClhead := by
  obtain ⟨h0, p, n, hn, hrth, hm⟩ := hx
  obtain ⟨c, v, l, r, heq, rfl⟩ := h.walk.shape.locate hn
  have hv : v.rth = x := hrth
  have hmark : v.marked = true := hm
  have hmem : (p, v) ∈ t.pre := Shape.mem_of_plug heq
  intro hlist
  have hmarker := h.heads _ hmem (hv.trans_ne h0)
  rw [show (p, v).2.rth = x from hv] at hmarker
  obtain ⟨-, y, hy, hyx, -, hym⟩ := h.listed x hlist hmarker
  obtain rfl := h.walk.shape.rth_inj hy hmem (hyx.trans_ne h0) (hyx.trans hv.symm)
  rw [show RtVal.marked v = true from hmark] at hym
  cases hym

/-- A step that leaves the list alone. -/
theorem MembersOk.of_stepOk (h : MembersOk marker s t) {gone fresh : Ptr → Prop}
    (hstep : StepOk gone fresh s t s') (hgone : ∀ x, gone x → x ∉ s.rtt.rttClhead)
    (hfresh : ∀ x, fresh x → marker x = false) :
    (∃ t', MembersOk marker s' t') ∧ HandsOver s s' := by
  obtain ⟨⟨t', hwalk, hkept⟩, freed, hsame, hfreed⟩ := hstep
  refine ⟨⟨t', hwalk, fun y hy h0 => ?_, fun x hx hmarker => ?_⟩, freed, hsame.rmfreed,
    fun x hx => ?_⟩
  · rcases hkept.new y hy h0 with hf | ⟨x, hx, heq⟩
    · exact hfresh _ hf
    · exact heq ▸ h.heads x hx (heq.trans_ne h0)
  · rw [hsame.clhead] at hx
    obtain ⟨hincl, y, hy, rfl, h0, hm⟩ := h.listed x hx hmarker
    refine ⟨?_, ?_⟩
    · rw [RtHead.incl, (hsame.heads y.2.rth).2]
      exact hincl
    · obtain ⟨z, hz, hzr, hzm⟩ := hkept.old y hy h0 hm fun hg => hgone _ hg hx
      exact ⟨z, hz, hzr, h0, hzm⟩
  · rcases hfreed x hx with hmarked | hg
    · exact h.not_listed hmarked
    · exact hgone x hg

/-- What `std_radical_appendtochangelist` leaves behind: the list has at most `rth` more, which is
marked as its member; nodes stay, and so do links and keys of heads. -/
structure Appended (rtt rtt' : RtTable) (rth : Ptr) : Prop where
  clhead : rtt'.rttClhead ⊆ rtt.rttClhead ++ [rth]
  incl : (rtt'.heads rth).incl = true
  others : ∀ x, (rtt.heads x).incl = true → (rtt'.heads x).incl = true
  heads : ∀ x, (rtt'.heads x).rthRtn = (rtt.heads x).rthRtn ∧
    (rtt'.heads x).rdxRthAddr = (rtt.heads x).rdxRthAddr
  nodes : rtt'.nodes = rtt.nodes ∧ rtt'.rttRoot = rtt.rttRoot
  config : rtt'.rttDebug = rtt.rttDebug ∧ rtt'.rttRmfree = rtt.rttRmfree
  rmfreed : rtt'.rmfreed = rtt.rmfreed

theorem appendtochangelist_spec (rtt : RtTable) (rth : Ptr) :
    Ensures (rtt.stdRadicalAppendtochangelist rth) fun res => Appended rtt res.2 rth := by
  have hset : RDCL_INCL != 0 := by decide
  have hdone : ∀ (rtt' : RtTable) (v : Nat), rtt'.rttClhead ⊆ rtt.rttClhead ++ [rth] →
      rtt'.nodes = rtt.nodes → rtt'.rttRoot = rtt.rttRoot → rtt'.rttDebug = rtt.rttDebug →
      rtt'.rttRmfree = rtt.rttRmfree → rtt'.rmfreed = rtt.rmfreed →
      rtt'.heads = ((rtt.mapFlags rth (· ||| RDCL_INCL)).setVersion rth v).heads →
      Appended rtt rtt' rth := by
    intro rtt' v hlist hnodes hroot hdebug hrmfree hfreed hheads
    refine ⟨hlist, ?_, fun x hx => ?_, fun x => ?_, ⟨hnodes, hroot⟩, ⟨hdebug, hrmfree⟩, hfreed⟩
    · simp [hheads, setVersion, mapFlags, setHead, RtHead.incl, or_and_self_flag]
      decide
    · rw [hheads]
      by_cases hxr : x = rth
      · simp [hxr, setVersion, mapFlags, setHead, RtHead.incl, or_and_self_flag]
        decide
      · simpa [setVersion, mapFlags, setHead, hxr] using hx
    · rw [hheads]
      by_cases hxr : x = rth
      · simp [hxr, setVersion, mapFlags, setHead]
      · simp [hxr, setVersion, mapFlags, setHead]
  unfold stdRadicalAppendtochangelist unlistHead
  refine .bindAny fun hd => .bindAny fun _ =>
    .bind (P := fun rtt' => ∃ l, l ⊆ rtt.rttClhead ∧ rtt' = rtt.relink l) ?_ ?_
  · split
    · exact .bindAny fun _ => ensures_ok.mpr ⟨_, List.erase_subset, rfl⟩
    · exact ensures_ok.mpr ⟨_, List.Subset.refl _, rfl⟩
  · rintro _ ⟨l, hl, rfl⟩
    have hlist : l ++ [rth] ⊆ rtt.rttClhead ++ [rth] :=
      List.append_subset.mpr ⟨fun x hx => List.mem_append_left _ (hl hx),
        List.subset_append_right _ _⟩
    refine ensures_ok.mpr (hdone _ ((rtt.rttVersion + 1) % 2 ^ 64) ?_ ?_ ?_ ?_ ?_ ?_ ?_)
    all_goals
      dsimp only
      split
      all_goals first | exact hlist | rfl

/-- A head is appended to the list. -/
theorem MembersOk.append (h : MembersOk marker s t) (houtside : s.control = .outside) {rth : Ptr}
    (hof : ∃ rn, HeadOf s.rtt rn rth) :
    Ensures (s.exec (.appendtochangelist rth)) fun s' =>
      (∃ t', MembersOk marker s' t') ∧ HandsOver s s' := by
  obtain ⟨rn, hof⟩ := hof
  obtain ⟨c, v, l, r, heq, hv, h0, -⟩ := h.walk.shape.headOf hof
  have hplaced := h.walk.placed
  rw [houtside] at hplaced
  have hmem : (rn, v) ∈ t.pre := Shape.mem_of_plug heq
  refine .bind (appendtochangelist_spec s.rtt rth) ?_
  rintro ⟨ver, rtt⟩ ⟨hlist, hincl, hothers, hheads, ⟨hnodes, hroot⟩, hconfig, hfreed⟩
  refine ensures_ok.mpr ⟨⟨t, h.walk.of_heads hnodes hroot hconfig.1 hheads, h.heads,
    fun x hx hmarker => ?_⟩, [], ?_, by simp⟩
  · rcases List.mem_append.mp (hlist hx) with hx | hx
    · exact ⟨hothers x (h.listed x hx hmarker).1, (h.listed x hx hmarker).2⟩
    · obtain rfl := List.mem_singleton.mp hx
      exact ⟨hincl, (rn, v), hmem, hv, h0, hplaced.2 _ hmem (hv.trans_ne h0)⟩
  · rw [List.append_nil]
    exact hfreed

/-- Every step keeps the invariant, and hands over no head that is on the list. -/
theorem MembersOk.step {l : TableLabel} (h : MembersOk marker s t) (hallow : l.Allowed marker s)
    (hunlisted : l.Unlisted s) (hstep : TableState.step l s = some s') :
    (∃ t', MembersOk marker s' t') ∧ HandsOver s s' := by
  unfold TableState.step at hstep
  split at hstep
  · next henabled =>
    obtain ⟨s₁, hrun, hs₁⟩ : ∃ s₁, s.exec l = .ok s₁ ∧ s₁ = s' := by
      cases hrun : s.exec l with
      | error e => rw [hrun] at hstep; cases hstep
      | ok s₁ => rw [hrun] at hstep; exact ⟨s₁, rfl, Option.some.inj hstep⟩
    subst hs₁
    have hwalk : ∀ {x : Exec TableState}, s.exec l = x → Ensures x (StepOk noHead noHead s t) →
        (∃ t', MembersOk marker s₁ t') ∧ HandsOver s s₁ := by
      rintro x rfl hx
      exact h.of_stepOk (hx s₁ hrun) (fun _ hg => hg.elim) fun _ hf => hf.elim
    cases l with
    | insert A copyOk rth addr bitlen =>
      refine h.of_stepOk (h.walk.insert henabled hallow s₁ hrun) (fun _ hg => hg.elim) ?_
      rintro x rfl
      exact hallow.2.1
    | remove rth =>
      refine h.of_stepOk (h.walk.remove henabled hallow hunlisted s₁ hrun) ?_ fun _ hf => hf.elim
      rintro x rfl
      exact hunlisted
    | appendtochangelist rth =>
      obtain ⟨rtt, control⟩ := s
      cases control with
      | outside => exact h.append rfl hallow s₁ hrun
      | loop _ | callback _ | climb _ _ => cases henabled
    | versionwalk rth walkFn cnt minVer maxVer =>
      obtain ⟨rtt, control⟩ := s
      cases control with
      | outside => exact hwalk rfl (h.walk.versionwalk hallow)
      | loop _ | callback _ | climb _ _ => cases henabled
    | callbackReturn ret =>
      obtain ⟨rtt, control⟩ := s
      cases control with
      | callback w => exact hwalk rfl (VersionWalk.callbackReturn_ok h.walk ret)
      | outside | loop _ | climb _ _ => cases henabled
    | round =>
      obtain ⟨rtt, control⟩ := s
      cases control with
      | loop w => exact hwalk rfl (VersionWalk.loopRound_ok h.walk)
      | climb w y => exact hwalk rfl (VersionWalk.climbRound_ok h.walk)
      | outside | callback _ => cases henabled
  · cases hstep

end

/-- A table of a user who tracks changes and takes removed heads back; the list starts with the
markers `l`. -/
def changesTable (maxaddrlen : Nat) (convert : Option (Addr → Nat → Addr)) (heads : Ptr → RtHead)
    (l : List Ptr) : RtTable :=
  { stdRadixCreate maxaddrlen true heads with
    rttRadicalused := true, rttConvert := convert, rttClhead := l }

/-- A new table is empty. -/
theorem changesTable_ok (maxaddrlen : Nat) (convert : Option (Addr → Nat → Addr))
    (heads : Ptr → RtHead) (l : List Ptr) :
    WalkOk ⟨changesTable maxaddrlen convert heads l, .outside⟩ .nil where
  shape := ⟨⟨rfl, trivial, by simp⟩, .nil, by simp [pre], fun p n hp => by cases hp⟩
  plain := rfl
  placed := ⟨by simp [Unlocked, pre], by simp [NoMarks, pre]⟩

/-- In every run in which no head is removed while it is on the change list, the members of the
list are heads of the tree and know that they are members, and no head is handed to `rtt_rmfree`
while it is on the list. -/
theorem change_list_in_tree {marker : Ptr → Bool} {maxaddrlen : Nat}
    {convert : Option (Addr → Nat → Addr)} {heads : Ptr → RtHead} {l : List Ptr}
    (hl : ∀ x ∈ l, marker x = true) {s : TableState}
    (h : OpxCommonUtils.Reached TableState.step (fun s l => l.Allowed marker s ∧ l.Unlisted s)
      ⟨changesTable maxaddrlen convert heads l, .outside⟩ s) :
    (∀ x ∈ s.rtt.rttClhead, marker x = false →
      (s.rtt.heads x).incl = true ∧ ∃ rn, HeadOf s.rtt rn x) ∧
    ∀ label s', label.Allowed marker s → label.Unlisted s → TableState.step label s = some s' →
      HandsOver s s' := by
  obtain ⟨t, hok⟩ : ∃ t, MembersOk marker s t := by
    refine h.invariant (P := fun s => ∃ t, MembersOk marker s t)
      ⟨.nil, changesTable_ok maxaddrlen convert heads l, by simp [pre], fun x hx hx' => ?_⟩ ?_
    · rw [hl x hx] at hx'
      cases hx'
    · rintro s₁ s₂ label ⟨t, hok⟩ ⟨hallow, hunlisted⟩ hstep
      exact (hok.step hallow hunlisted hstep).1
  refine ⟨fun x hx hmarker => ?_, fun label s' hallow hunlisted hstep =>
    (hok.step hallow hunlisted hstep).2⟩
  obtain ⟨hincl, ⟨p, v⟩, hmem, hv, h0, -⟩ := hok.listed x hx hmarker
  obtain ⟨c, a, b, heq⟩ := exists_plug_of_mem_pre hmem
  exact ⟨hincl, p, h0, _, hok.walk.shape.get_node heq, hv⟩

/-- A table for keys of 32 bits with one walker's marker on the list. -/
def sampleListed : TableState := ⟨changesTable 32 none (fun _ => default) [1], .outside⟩

/-- Two heads are inserted and one of them changes; the callback of a version walk removes the
other one, which is on no list. -/
def sampleUnlisted : List TableLabel :=
  [.insert .above true 10 (fun _ => 0) 8, .insert .above true 11 (fun _ => 1) 8,
    .appendtochangelist 10, .versionwalk NULL true 0 0 9, .round, .round, .callbackReturn 0,
    .round, .round, .round, .round, .remove 11, .callbackReturn 0, .round, .round, .round]

/-- After `sampleUnlisted` the changed head is on the list, and in the tree. -/
theorem change_list_in_tree_sample : ∃ s : TableState,
    s.rtt.rttClhead = [1, 10] ∧ s.rtt.rmfreed = [11] ∧ (s.rtt.heads 10).incl = true ∧
    ∃ rn, HeadOf s.rtt rn 10 := by
  have hrun : (runSteps TableState.step sampleUnlisted sampleListed).map
      (fun s => (s.rtt.rttClhead, s.rtt.rmfreed)) = some ([1, 10], [11]) := by decide +kernel
  obtain ⟨s, hs, hend⟩ := Option.map_eq_some_iff.mp hrun
  obtain ⟨hlist, hfreed⟩ := Prod.mk.inj hend
  have hreached := Reached.runSteps_of_allMeet (fun s l => l.Allowed (fun p => p < 10) s ∧
    l.Unlisted s) sampleUnlisted .init
    (by decide +kernel) hs
  have hintree := change_list_in_tree (l := [1])
    (fun x hx => by obtain rfl := List.mem_singleton.mp hx; rfl) hreached
  exact ⟨s, hlist, hfreed, hintree.1 10 (by rw [hlist]; simp) rfl⟩

/-- A head is inserted and changes. -/
def sampleChanged : List TableLabel :=
  [.insert .above true 10 (fun _ => 0) 8, .appendtochangelist 10]

/-- The callback of a version walk removes the changed head. -/
def sampleVisited : List TableLabel :=
  [.versionwalk NULL true 0 0 9, .round, .remove 10, .callbackReturn 0, .round, .round, .round]

/-- A head that is removed is handed over while it is on the list; one that is removed in a
callback stays on the list when its node is gone. -/
theorem removed_head_stays_listed :
    (∃ s s' : TableState, OpxCommonUtils.Reached TableState.step
        (fun s l => l.Allowed (fun p => p < 10) s) sampleListed s ∧
      TableLabel.Allowed (fun p => p < 10) s (.remove 10) ∧
      TableState.step (.remove 10) s = some s' ∧
      10 ∈ s.rtt.rttClhead ∧ s'.rtt.rmfreed = s.rtt.rmfreed ++ [10]) ∧
    ∃ s : TableState, OpxCommonUtils.Reached TableState.step
        (fun s l => l.Allowed (fun p => p < 10) s) sampleListed s ∧
      10 ∈ s.rtt.rttClhead ∧ ¬∃ rn, HeadOf s.rtt rn 10 := by
  have hrun : (runSteps TableState.step sampleChanged sampleListed).map
      (fun s => (decide (TableLabel.Allowed (fun p => p < 10) s (.remove 10)), s.rtt.rttClhead,
        s.rtt.rmfreed, (TableState.step (.remove 10) s).map fun s' => s'.rtt.rmfreed)) =
      some (true, [1, 10], [], some [10]) := by decide +kernel
  have hrun' : (runSteps TableState.step (sampleChanged ++ sampleVisited) sampleListed).map
      (fun s : TableState => (s.rtt.rttClhead, decide (∃ rn, HeadOf s.rtt rn 10))) =
      some ([1, 10], false) := by decide +kernel
  obtain ⟨s, hs, hend⟩ := Option.map_eq_some_iff.mp hrun
  obtain ⟨r, hr, hend'⟩ := Option.map_eq_some_iff.mp hrun'
  simp only [Prod.mk.injEq] at hend hend'
  obtain ⟨s', hs', hfreed⟩ := Option.map_eq_some_iff.mp hend.2.2.2
  refine ⟨⟨s, s', ?_, of_decide_eq_true hend.1, hs', by rw [hend.2.1]; simp, ?_⟩, r, ?_,
    by rw [hend'.1]; simp, of_decide_eq_false hend'.2⟩
  · exact .runSteps_of_allMeet _ sampleChanged .init (by decide +kernel) hs
  · rw [hfreed, hend.2.2.1]
    rfl
  · exact .runSteps_of_allMeet _ (sampleChanged ++ sampleVisited) .init (by decide +kernel) hr

end OpxCommonUtils.Radix
