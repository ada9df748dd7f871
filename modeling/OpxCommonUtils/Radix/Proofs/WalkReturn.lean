import OpxCommonUtils.Radix.Proofs.ChangeMembers

/-!
# What a version walk hands back

A walk that stops climbs to the root from the node `rtn` it stopped at, and then reads the head of
`rtn`. On its way it removes marked nodes, `rtn` itself when that is marked and has a child at most:
the callback that ended the walk removed the head it was called for, and there is no left child to
which the walk has gone on. In all other walks no freed node is read, and the head handed back is
in the tree (`versionwalk_returns`).
-/

namespace OpxCommonUtils.Radix

open Tree Trie LinkTree RtTable

/-- A table that has no nodes yet. -/
structure NewTable (rtt : RtTable) : Prop where
  root : rtt.rttRoot = NULL
  nodes : ∀ p, rtt.nodes.get p = none
  debug : rtt.rttDebug = false

theorem NewTable.walkOk {rtt : RtTable} (h : NewTable rtt) : WalkOk ⟨rtt, .outside⟩ .nil where
  shape := by
    refine ⟨⟨h.root, trivial, by simp⟩, .nil, by simp [pre], ?_⟩
    intro p n hp
    rw [h.nodes p] at hp
    cases hp
  plain := h.debug
  placed := ⟨by simp [Unlocked, pre], by simp [NoMarks, pre]⟩

/-! ## A run keeps the table in shape -/

section
variable {marker : Ptr → Bool} {s s' : TableState} {t : Tree RtVal}

/-- What a step did is what its execution delivers. -/
theorem exec_of_step {l : TableLabel} (hstep : TableState.step l s = some s') :
    s.enabled l = true ∧ s.exec l = .ok s' := by
  unfold TableState.step at hstep
  split at hstep
  · next henabled =>
    cases hrun : s.exec l with
    | error e =>
      rw [hrun] at hstep
      cases hstep
    | ok s₁ =>
      rw [hrun] at hstep
      exact ⟨henabled, congrArg Except.ok (Option.some.inj hstep)⟩
  · cases hstep

theorem step_of_exec {l : TableLabel} (henabled : s.enabled l = true) (hrun : s.exec l = .ok s') :
    TableState.step l s = some s' := by
  rw [TableState.step, if_pos henabled, hrun]
  rfl

/-- Every step keeps the table in shape. -/
theorem WalkOk.step {l : TableLabel} (h : WalkOk s t) (hallow : l.Allowed marker s)
    (hstep : TableState.step l s = some s') : ∃ t', WalkOk s' t' := by
  obtain ⟨henabled, hrun⟩ := exec_of_step hstep
  have hkept : ∀ {gone fresh : Ptr → Prop}, Ensures (s.exec l) (StepOk gone fresh s t) →
      ∃ t', WalkOk s' t' := by
    intro gone fresh hok
    obtain ⟨⟨t', hwalk, -⟩, -⟩ := hok s' hrun
    exact ⟨t', hwalk⟩
  cases l with
  | insert A copyOk rth addr bitlen => exact hkept (h.insert henabled hallow)
  | remove rth =>
    obtain ⟨⟨t', hwalk, -⟩, -⟩ := h.remove_kept henabled hallow s' hrun
    exact ⟨t', hwalk⟩
  | appendtochangelist rth =>
    obtain ⟨⟨ver, rtt⟩, happend, hs'⟩ := exec_bind_eq_ok.mp hrun
    obtain rfl := Except.ok.inj hs'
    have hdone := appendtochangelist_spec s.rtt rth _ happend
    exact ⟨t, h.of_heads hdone.nodes.1 hdone.nodes.2 hdone.config.1 hdone.heads⟩
  | versionwalk rth walkFn cnt minVer maxVer =>
    obtain ⟨rtt, control⟩ := s
    cases control with
    | outside => exact hkept (h.versionwalk hallow)
    | loop _ | callback _ | climb _ _ => cases henabled
  | callbackReturn ret =>
    obtain ⟨rtt, control⟩ := s
    cases control with
    | callback w => exact hkept (VersionWalk.callbackReturn_ok h ret)
    | outside | loop _ | climb _ _ => cases henabled
  | round =>
    obtain ⟨rtt, control⟩ := s
    cases control with
    | loop w => exact hkept (VersionWalk.loopRound_ok h)
    | climb w y => exact hkept (VersionWalk.climbRound_ok h)
    | outside | callback _ => cases henabled

end

/-! ## The climb and the node the walk holds -/

/-- The node `p` is in the tree, and a removal would keep it. -/
def Held (t : Tree RtVal) (p : Ptr) : Prop :=
  ∃ c v l r, plug c (.node p v l r) = t ∧ (v.marked = true → l ≠ .nil ∧ r ≠ .nil)

/-- The climb is at `y`, at or above such a node `p`. -/
def Climbs (t : Tree RtVal) (p y : Ptr) : Prop :=
  ∃ d e v l r, plug e (plug d (.node p v l r)) = t ∧ (plug d (.node p v l r)).root NULL = y ∧
    (v.marked = true → l ≠ .nil ∧ r ≠ .nil)

section
variable {t t' : Tree RtVal} {c d e : List (Frame RtVal)} {p y : Ptr} {v : RtVal}
  {l r ly ry : Tree RtVal}

theorem Climbs.held (h : Climbs t p y) : Held t p := by
  obtain ⟨d, e, v, l, r, heq, -, hkeep⟩ := h
  exact ⟨d ++ e, v, l, r, (plug_append d e _).trans heq, hkeep⟩

/-- The climb goes up, or has come to its end. -/
theorem climbs_top (heq : plug e (plug d (.node p v l r)) = t)
    (hkeep : v.marked = true → l ≠ .nil ∧ r ≠ .nil) :
    Held t p ∧ (Ctx.top NULL e = NULL ∨ Climbs t p (Ctx.top NULL e)) := by
  refine ⟨⟨d ++ e, v, l, r, (plug_append d e _).trans heq, hkeep⟩, ?_⟩
  cases e with
  | nil => exact .inl rfl
  | cons f e =>
    refine .inr ⟨d ++ [f], e, v, l, r, ?_, ?_, hkeep⟩
    · rw [plug_append]
      exact heq
    · rw [plug_append, plug_cons, plug_nil, root_join]
      rfl

/-- A removal on the way leaves the node of the walk alone. -/
theorem Pruned.climbs {dir : RtTable.Dir} {vy : RtVal} {ps : List Ptr} {ret : Ptr × RtTable.Dir}
    (h : Pruned dir y vy e ly ry t' ps ret) (hmark : vy.marked = true)
    (heq : plug d (.node p v l r) = .node y vy ly ry)
    (hkeep : v.marked = true → l ≠ .nil ∧ r ≠ .nil) :
    Held t' p ∧ (ret.1 = NULL ∨ Climbs t' p ret.1) := by
  rcases List.eq_nil_or_concat d with rfl | ⟨d, f, rfl⟩
  · -- the node of the walk itself keeps its two children
    obtain ⟨rfl, rfl, rfl, rfl⟩ := Tree.node.inj heq
    obtain ⟨hl, hr⟩ := hkeep hmark
    cases h with
    | keep _ _ => exact climbs_top (d := []) rfl fun _ => ⟨hl, hr⟩
    | last => exact absurd rfl hl
    | leaf _ => exact absurd rfl hl
    | collapse _ _ => exact absurd rfl hl
    | @promote _ _ _ S s _ hnode =>
      cases s with
      | left => exact absurd (Tree.node.inj hnode).2.2.2 hr
      | right => exact absurd (Tree.node.inj hnode).2.2.1 hl
  · have hne := plug_ne_nil d (t := Tree.node p v l r) (by simp)
    rw [List.concat_eq_append] at heq
    rcases plug_concat_eq_node heq with ⟨-, hside⟩ | ⟨-, hside⟩
    · rw [hside] at hne
      cases h with
      | keep _ _ =>
        refine climbs_top (d := d ++ [⟨.left, y, { vy with rth := NULL }, ry⟩]) ?_ hkeep
        rw [plug_append, hside]
        rfl
      | last => exact absurd rfl hne
      | leaf _ => exact absurd rfl hne
      | collapse _ _ => exact absurd rfl hne
      | @promote _ _ _ S s _ hnode =>
        cases s with
        | left =>
          obtain rfl := (Tree.node.inj hnode).2.2.1
          exact climbs_top (congrArg (plug e) hside) hkeep
        | right => exact absurd (Tree.node.inj hnode).2.2.1 hne
    · rw [hside] at hne
      cases h with
      | keep _ _ =>
        refine climbs_top (d := d ++ [⟨.right, y, { vy with rth := NULL }, ly⟩]) ?_ hkeep
        rw [plug_append, hside]
        rfl
      | last => exact absurd rfl hne
      | leaf _ => exact absurd rfl hne
      | collapse _ _ => exact absurd rfl hne
      | @promote _ _ _ S s _ hnode =>
        cases s with
        | left => exact absurd (Tree.node.inj hnode).2.2.2 hne
        | right =>
          obtain rfl := (Tree.node.inj hnode).2.2.2
          have hclimbs : Climbs (plug e ry) p (ry.root NULL) :=
            ⟨d, e, v, l, r, congrArg (plug e) hside, congrArg (Tree.root NULL) hside, hkeep⟩
          exact ⟨hclimbs.held, .inr hclimbs⟩

end

/-- The walk that is in progress may come to its end: when it stops, it holds a node which the climb
keeps. -/
def StopOk (t : Tree RtVal) : Control → Prop
  | .loop w => w.lcnt = 0 → w.rtn ≠ NULL → Held t w.rtn
  | .climb w y => Climbs t w.rtn y
  | .outside | .callback _ => True

/-- What a walk in progress reads is there. -/
structure ReturnOk (s : TableState) : Prop where
  walk : ∃ t, WalkOk s t
  stop : ∃ t, Shape s.rtt t ∧ StopOk t s.control

namespace VersionWalk

variable {rtt : RtTable} {t : Tree RtVal} {w : VersionWalk} {y : Ptr}

/-- A round of the climb goes up or removes a node, and keeps the node of the walk. -/
theorem climbRound_climbs (hs : Shape rtt t) (h : Climbs t w.rtn y) :
    Delivers (climbRound rtt w y) fun s' => ∃ t', Shape s'.rtt t' ∧ Held t' w.rtn ∧
      (s'.control = .outside ∨ ∃ w' y', s'.control = .climb w' y' ∧ w'.rtn = w.rtn ∧
        Climbs t' w.rtn y') := by
  obtain ⟨d, e, v, l, r, heq, hroot, hkeep⟩ := h
  have hne := plug_ne_nil d (t := Tree.node w.rtn v l r) (by simp)
  cases hsub : plug d (.node w.rtn v l r) with
  | nil => exact absurd hsub hne
  | node q vy ly ry =>
    rw [hsub] at hroot heq
    obtain rfl : q = y := hroot
    -- from where the climb is next
    have hnext : ∀ {rtt' : RtTable} {t' : Tree RtVal} (w' : VersionWalk) (next : Ptr),
        Shape rtt' t' → w'.rtn = w.rtn → Held t' w.rtn ∧ (next = NULL ∨ Climbs t' w.rtn next) →
        ∃ t'', Shape rtt' t'' ∧ Held t'' w.rtn ∧
          ((if next = NULL then Control.outside else .climb w' next) = .outside ∨
            ∃ w'' y', (if next = NULL then Control.outside else .climb w' next) = .climb w'' y' ∧
              w''.rtn = w.rtn ∧ Climbs t'' w.rtn y') := by
      intro rtt' t' w' next hs' hw' hheld
      refine ⟨t', hs', hheld.1, ?_⟩
      by_cases h0 : next = NULL
      · exact .inl (if_pos h0)
      · exact .inr ⟨w', next, if_neg h0, hw', hheld.2.resolve_left h0⟩
    rw [climbRound, hs.deref_cell heq, exec_bind_ok]
    split
    · next hgo =>
      obtain ⟨hlock, hmark⟩ := (Bool.and_eq_true _ _ ▸ hgo)
      have hhole : ly ≠ .nil ∨ ry ≠ .nil := by
        rcases List.eq_nil_or_concat d with rfl | ⟨d, f, rfl⟩
        · obtain ⟨-, rfl, rfl, rfl⟩ := Tree.node.inj hsub
          exact .inl (hkeep hmark).1
        · rw [List.concat_eq_append] at hsub
          have hin := plug_ne_nil d (t := Tree.node w.rtn v l r) (by simp)
          rcases plug_concat_eq_node hsub with ⟨-, hside⟩ | ⟨-, hside⟩
          · exact .inl (hside ▸ hin)
          · exact .inr (hside ▸ hin)
      obtain ⟨t', ps, ret, rtt', hpr, hres, hs', -⟩ :=
        hs.removeNode_spec w.dir heq (beq_iff_eq.mp hlock) fun f d _ _ hl hr =>
          absurd hr (hhole.resolve_left (not_not.mpr hl))
      rw [hres, exec_bind_ok]
      exact delivers_ok.mpr (hnext { w with dir := ret.2 } ret.1 hs' rfl
        (hpr.climbs hmark hsub hkeep))
    · rw [← hsub] at heq
      exact delivers_ok.mpr (hnext w (Ctx.top NULL e) hs rfl (climbs_top heq hkeep))

/-- A round of the loop with calls to go leaves them, or makes one. -/
theorem loopRound_lcnt (hcnt : w.lcnt ≠ 0) :
    Ensures (loopRound rtt w) fun s' =>
      match s'.control with
      | .loop w' => w'.lcnt = w.lcnt
      | .callback w' => w'.lcnt + 1 = w.lcnt
      | .outside => True
      | .climb .. => False := by
  unfold loopRound
  by_cases h0 : w.rtn = NULL
  · rw [if_pos h0]
    exact ensures_ok.mpr trivial
  rw [if_neg h0, if_neg hcnt]
  cases w.dir with
  | walkdown =>
    refine .bindAny fun n => ?_
    split
    · exact ensures_ok.mpr rfl
    split
    · refine .bindAny fun nodes => ensures_ok.mpr ?_
      dsimp only
      rw [ulongPred, if_neg hcnt]
      omega
    · refine ensures_ok.mpr ?_
      dsimp only
      unfold goLeft
      split <;> rfl
  | walkright =>
    refine .bindAny fun n => ?_
    split
    · exact ensures_ok.mpr rfl
    · exact ensures_ok.mpr rfl
  | walkup =>
    refine .bindAny fun n => ?_
    split
    · exact .bindAny fun res => ensures_ok.mpr rfl
    · exact .bindAny fun left => ensures_ok.mpr rfl

/-- Rounds of the loop with calls to go lead to no state that could stop. -/
theorem loopRound_stopOk (hcnt : w.lcnt ≠ 0) :
    Ensures (loopRound rtt w) fun s' => ∀ t', StopOk t' s'.control := by
  refine (loopRound_lcnt hcnt).mono fun s' hleft t' => ?_
  cases hcontrol : s'.control with
  | outside | callback _ => trivial
  | loop w' =>
    rw [hcontrol] at hleft
    intro h0
    exact absurd (hleft.symm.trans h0) hcnt
  | climb _ _ =>
    rw [hcontrol] at hleft
    cases hleft

/-- Without calls to go the loop ends. -/
theorem loopRound_stopped (hcnt : w.lcnt = 0) :
    Ensures (loopRound rtt w) fun s' =>
      s'.control = .outside ∨ ∃ w' y, s'.control = .climb w' y := by
  unfold loopRound
  rw [if_pos hcnt]
  split
  · exact ensures_ok.mpr (.inl rfl)
  · exact ensures_ok.mpr (.inr ⟨w, w.rtn, rfl⟩)

/-- The climb goes on or ends. -/
theorem climbRound_climbing : Ensures (climbRound rtt w y) fun s' =>
    s'.control = .outside ∨ ∃ w' y', s'.control = .climb w' y' := by
  have hnext : ∀ {rtt' : RtTable} {w' : VersionWalk} {next : Ptr},
      (TableState.mk rtt' (if next = NULL then .outside else .climb w' next)).control = .outside ∨
        ∃ w'' y', (TableState.mk rtt' (if next = NULL then .outside
          else .climb w' next)).control = .climb w'' y' := by
    intro rtt' w' next
    by_cases h0 : next = NULL
    · exact .inl (if_pos h0)
    · exact .inr ⟨w', next, if_neg h0⟩
  refine .bindAny fun n => ?_
  split
  · exact .bindAny fun res => ensures_ok.mpr hnext
  · exact ensures_ok.mpr hnext

/-- A round of the loop reads nodes of the tree only. -/
theorem loopRound_runs (h : WalkOk ⟨rtt, .loop w⟩ t) : ∃ s', loopRound rtt w = .ok s' := by
  obtain ⟨hlocks, hat⟩ := h.placed
  unfold loopRound
  by_cases h0 : w.rtn = NULL
  · exact ⟨_, if_pos h0⟩
  rw [if_neg h0]
  by_cases hcnt : w.lcnt = 0
  · exact ⟨_, if_pos hcnt⟩
  rw [if_neg hcnt]
  generalize hrtn : w.rtn = rtn at hat h0
  cases hat with
  | gone => exact absurd rfl h0
  | @node c _ v l r heq hmarks =>
    have hcell := h.shape.deref_cell heq
    cases w.dir with
    | walkdown =>
      dsimp only
      rw [walkDown, hrtn, hcell, exec_bind_ok]
      split
      · exact ⟨_, rfl⟩
      split
      · rw [Heap.update_ok (h.shape.get_node heq)]
        exact ⟨_, rfl⟩
      · exact ⟨_, rfl⟩
    | walkright =>
      dsimp only
      rw [walkRight, hrtn, hcell, exec_bind_ok]
      split
      · exact ⟨_, rfl⟩
      · exact ⟨_, rfl⟩
    | walkup =>
      dsimp only
      rw [walkUp, hrtn, hcell, exec_bind_ok]
      split
      · next hgo =>
        have hlock : v.lock = 0 := hlocks _ (Shape.mem_of_plug heq)
        obtain ⟨t', ps, ret, rtt', -, hres, -⟩ :=
          h.shape.removeNode_spec w.dir heq hlock fun f d hc _ _ _ =>
            hlocks _ (heq ▸ hc ▸ Shape.mem_pre_of_frame List.mem_cons_self)
        rw [hres]
        exact ⟨_, rfl⟩
      · cases c with
        | nil => exact ⟨_, rfl⟩
        | cons f c =>
          have hf := h.shape.frame_ne_null heq List.mem_cons_self
          obtain ⟨n, hn, -⟩ := h.shape.deref_frame heq
          have hleft : isLeft rtt (Ctx.top NULL (f :: c)) rtn = .ok (decide (rtn = n.rtnLeft)) := by
            rw [Ctx.top_cons, isLeft, if_neg hf, hn]
            rfl
          change ∃ s', (isLeft rtt (Ctx.top NULL (f :: c)) rtn >>= _) = .ok s'
          rw [hleft]
          exact ⟨_, rfl⟩

end VersionWalk

/-! ## Steps and runs -/

/-- The callback ends the walk and has removed the head it was called for, and there is no left child
for the walk to go on to. -/
def StopsAtRemoved (s : TableState) (l : TableLabel) : Prop :=
  match s.control, l with
  | .callback w, .callbackReturn ret => (ret ≠ 0 ∨ w.lcnt = 0) ∧
      ∃ n ∈ s.rtt.nodes.get w.rtn, n.marked = true ∧ n.rtnLeft = NULL
  | _, _ => False

/-- The walk that is over with the round from `s` to `s'` hands back `NULL` or a head of the tree. -/
def ReturnsWell (s s' : TableState) : Prop :=
  ∃ rth, s.returned s' = .ok rth ∧ (rth = NULL ∨ ∃ rn, HeadOf s'.rtt rn rth)

/-- The walk reads what is there, and what it hands back when it is over is `NULL` or a head of the
tree. -/
structure WalkSafe (s : TableState) : Prop where
  goesOn : ∀ w ret, s.control = .callback w → ∃ s', s.exec (.callbackReturn ret) = .ok s'
  round : s.enabled .round = true → ∃ s', s.exec .round = .ok s' ∧
    (s'.control = .outside → ReturnsWell s s')

section
variable {marker : Ptr → Bool} {s s' : TableState} {rtt : RtTable} {t : Tree RtVal}
  {c : List (Frame RtVal)} {p : Ptr} {v : RtVal} {l r : Tree RtVal}

/-- A node whose head is not marked, or that has none. -/
theorem Held.of_unmarked (hs : Shape rtt t) (heq : plug c (.node p v l r) = t)
    (hmark : v.rth ≠ NULL → v.marked = false) : Held t p := by
  refine ⟨c, v, l, r, heq, fun hm => ?_⟩
  by_cases h0 : v.rth = NULL
  · obtain ⟨k, -, hwf⟩ := (heq.symm ▸ hs.wf).split
    exact hwf.children_of_glue ((key_view_eq_none (hs.linked _ (Shape.mem_of_plug heq))).mpr h0)
  · rw [hmark h0] at hm
    cases hm

/-- Below the walker no head is marked. -/
theorem MarksAbove.not_below (hs : Shape rtt t) (heq : plug c (.node p v l r) = t)
    (hmarks : MarksAbove c (.node p v l r)) {x : Ptr × RtVal} (hx : x ∈ l.pre)
    (h0 : x.2.rth ≠ NULL) : x.2.marked = false := by
  have hnd := heq ▸ hs.holds.nodup
  obtain ⟨hsub, -, hdisj⟩ := (nodup_plug _ _).mp hnd
  have hxl : x.1 ∈ l.ptrs := map_fst_pre l ▸ List.mem_map_of_mem hx
  have hin : x ∈ (plug c (.node p v l r)).pre := by
    rw [mem_pre_plug]
    simp [pre, hx]
  by_contra hm
  rcases hmarks x hin h0 (by simpa using hm) with hself | ⟨f, hf, hfx⟩
  · rw [root_node] at hself
    simp only [ptrs, List.nodup_cons, List.mem_append, not_or] at hsub
    exact hsub.1.1 (hself ▸ hxl)
  · have hctx : x.1 ∈ Ctx.ptrs c := by
      rw [← hfx]
      exact List.mem_flatMap.mpr ⟨f, hf, List.mem_cons_self⟩
    exact hdisj (by simp [ptrs, hxl]) hctx

/-- A state in which the walk does not stop. -/
theorem ReturnOk.of_walk (h : ∃ t, WalkOk s t) (hstop : ∀ t, StopOk t s.control) : ReturnOk s := by
  obtain ⟨t, ht⟩ := h
  exact ⟨⟨t, ht⟩, t, ht.shape, hstop t⟩

/-- The return of a callback that has not removed its head at the end of the walk. -/
theorem ReturnOk.callbackReturn {w : VersionWalk} {ret : Int} (h : WalkOk ⟨rtt, .callback w⟩ t)
    (hnot : ¬ StopsAtRemoved ⟨rtt, .callback w⟩ (.callbackReturn ret))
    (hrun : VersionWalk.callbackReturn rtt w ret = .ok s') :
    ∃ t', Shape s'.rtt t' ∧ StopOk t' s'.control := by
  obtain ⟨c, v, l, r, heq, hmarks, hv, -, -⟩ := h.placed
  have hget := h.shape.get_node heq
  rw [VersionWalk.callbackReturn_eq h.shape heq] at hrun
  obtain rfl := Except.ok.inj hrun
  let v' : RtVal := { v with lock := v.lock - 1 }
  have hs' : Shape { rtt with nodes := rtt.nodes.set w.rtn (NodeLayout.cell (l.root NULL) (r.root NULL)
      (Ctx.top NULL c) v') } (plug c (.node w.rtn v' l r)) :=
    h.shape.setVal heq rfl rfl rfl rfl rfl rfl
  have hnd : (plug c (.node w.rtn v l r)).ptrs.Nodup := heq ▸ h.shape.holds.nodup
  refine ⟨_, hs', ?_⟩
  by_cases hleft : l = .nil
  · -- the walk stays at the node
    subst hleft
    have hgo : ∀ w' : VersionWalk, w'.goLeft (NodeLayout.cell ((.nil : Tree RtVal).root NULL)
        (r.root NULL) (Ctx.top NULL c) v') = { w' with dir := .walkright } := fun _ => rfl
    change StopOk _ (.loop (VersionWalk.goLeft _ _))
    rw [hgo]
    intro hcnt _
    have hends : ret ≠ 0 ∨ w.lcnt = 0 := by
      by_cases hret : ret ≠ 0
      · exact .inl hret
      · rw [if_neg hret] at hcnt
        exact .inr hcnt
    have hunmarked : v.marked = false := by
      by_contra hm
      have hmark : v.marked = true := by simpa using hm
      exact hnot ⟨hends, _, hget, hmark, rfl⟩
    have hrtn : (if ret ≠ 0 then { w with lcnt := 0 } else w).rtn = w.rtn := by
      split <;> rfl
    change Held _ (if ret ≠ 0 then { w with lcnt := 0 } else w).rtn
    rw [hrtn]
    exact Held.of_unmarked hs' rfl fun _ => hunmarked
  · -- it goes on to the left child
    cases l with
    | nil => exact absurd rfl hleft
    | node q vq a b =>
      have hq : q ≠ NULL := h.shape.ptr_ne_null (by rw [← heq, mem_ptrs_plug]; simp [ptrs])
      have hgo : ∀ w' : VersionWalk, w'.goLeft (NodeLayout.cell ((Tree.node q vq a b).root NULL)
          (r.root NULL) (Ctx.top NULL c) v') = { w' with rtn := q } := fun _ => if_pos hq
      change StopOk _ (.loop (VersionWalk.goLeft _ _))
      rw [hgo]
      intro _ _
      exact Held.of_unmarked (c := ⟨.left, w.rtn, v', r⟩ :: c) hs' rfl
        (hmarks.not_below h.shape heq (x := (q, vq)) (by simp [pre]))

/-- The beginning of a walk, at a node that is not marked. -/
theorem ReturnOk.start {rth : Ptr} {walkFn : Bool} {cnt : Int} {minVer maxVer : Nat}
    (h : WalkOk ⟨rtt, .outside⟩ t)
    (hallow : TableLabel.Allowed marker ⟨rtt, .outside⟩ (.versionwalk rth walkFn cnt minVer maxVer))
    (hrun : VersionWalk.start rtt rth walkFn cnt minVer maxVer = .ok s') :
    ∃ t', Shape s'.rtt t' ∧ StopOk t' s'.control := by
  obtain ⟨-, hmarks⟩ := h.placed
  unfold VersionWalk.start at hrun
  dsimp only at hrun
  by_cases hrth : rth = NULL
  · rw [if_pos hrth] at hrun
    obtain rfl := Except.ok.inj hrun
    refine ⟨t, h.shape, fun _ h0 => ?_⟩
    change rtt.rttRoot ≠ NULL at h0
    change Held t rtt.rttRoot
    rw [h.shape.holds.root_eq] at h0 ⊢
    cases t with
    | nil => exact absurd rfl h0
    | node p v l r =>
      exact Held.of_unmarked (c := []) h.shape rfl (hmarks (p, v) (by simp [pre]))
  · rw [if_neg hrth] at hrun
    by_cases hrtn : (rtt.heads rth).rthRtn = NULL
    · rw [if_pos hrtn] at hrun
      obtain rfl := Except.ok.inj hrun
      exact ⟨t, h.shape, trivial⟩
    · rw [if_neg hrtn] at hrun
      obtain rfl := Except.ok.inj hrun
      obtain ⟨rn, hof⟩ := hallow.resolve_left hrth
      obtain ⟨c, v, l, r, heq, -, -, hrn⟩ := h.shape.headOf hof
      refine ⟨t, h.shape, fun _ _ => ?_⟩
      change Held t (rtt.heads rth).rthRtn
      rw [hrn]
      exact Held.of_unmarked h.shape heq (hmarks (rn, v) (Shape.mem_of_plug heq))

/-- Every step but the return of a callback that has removed its head at the end of the walk. -/
theorem ReturnOk.step {label : TableLabel} (h : ReturnOk s) (hallow : label.Allowed marker s)
    (hnot : ¬ StopsAtRemoved s label) (hstep : TableState.step label s = some s') : ReturnOk s' := by
  obtain ⟨⟨t, hwalk⟩, u, hs, hstop⟩ := h
  have hnext := hwalk.step hallow hstep
  obtain ⟨henabled, hrun⟩ := exec_of_step hstep
  obtain ⟨rtt, control⟩ := s
  -- the user's calls do not move the walk
  have huser : s'.control = control → TableState.userActs ⟨rtt, control⟩ = true → ReturnOk s' := by
    intro hsame hacts
    apply ReturnOk.of_walk hnext
    intro t'
    rw [hsame]
    cases control with
    | outside | callback _ => trivial
    | loop _ | climb _ _ => cases hacts
  cases label with
  | insert A copyOk rth addr bitlen =>
    obtain ⟨res, -, hs'⟩ := exec_bind_eq_ok.mp hrun
    exact huser (Except.ok.inj hs' ▸ rfl) henabled
  | remove rth =>
    obtain ⟨res, -, hs'⟩ := exec_bind_eq_ok.mp hrun
    exact huser (Except.ok.inj hs' ▸ rfl) henabled
  | appendtochangelist rth =>
    obtain ⟨res, -, hs'⟩ := exec_bind_eq_ok.mp hrun
    cases control with
    | outside => exact huser (Except.ok.inj hs' ▸ rfl) rfl
    | callback _ | loop _ | climb _ _ => cases henabled
  | versionwalk rth walkFn cnt minVer maxVer =>
    cases control with
    | callback _ | loop _ | climb _ _ => cases henabled
    | outside =>
      exact ⟨hnext, ReturnOk.start hwalk hallow hrun⟩
  | callbackReturn ret =>
    cases control with
    | callback w => exact ⟨hnext, ReturnOk.callbackReturn hwalk hnot hrun⟩
    | outside | loop _ | climb _ _ => cases henabled
  | round =>
    cases control with
    | outside | callback _ => cases henabled
    | climb w y =>
      obtain ⟨s₁, hs₁, t', hs', -, hcontrol⟩ := VersionWalk.climbRound_climbs hs hstop
      obtain rfl := Except.ok.inj (hs₁.symm.trans hrun)
      refine ⟨hnext, t', hs', ?_⟩
      rcases hcontrol with hout | ⟨w', y', hclimb, hw', hclimbs⟩
      · rw [hout]
        trivial
      · rw [hclimb]
        change Climbs t' w'.rtn y'
        rwa [hw']
    | loop w =>
      by_cases hcnt : w.lcnt = 0
      · by_cases h0 : w.rtn = NULL
        · have hout : VersionWalk.loopRound rtt w = .ok ⟨rtt, .outside⟩ := if_pos h0
          obtain rfl := Except.ok.inj (hout.symm.trans hrun)
          exact ⟨hnext, u, hs, trivial⟩
        · have hclimb : VersionWalk.loopRound rtt w = .ok ⟨rtt, .climb w w.rtn⟩ := by
            rw [VersionWalk.loopRound, if_neg h0, if_pos hcnt]
          obtain rfl := Except.ok.inj (hclimb.symm.trans hrun)
          obtain ⟨c, v, l, r, heq, hkeep⟩ := hstop hcnt h0
          exact ⟨hnext, u, hs, [], c, v, l, r, heq, rfl, hkeep⟩
      · exact ReturnOk.of_walk hnext (VersionWalk.loopRound_stopOk hcnt s' hrun)

/-- In such a state the walk is safe. -/
theorem ReturnOk.walkSafe (h : ReturnOk s) : WalkSafe s := by
  obtain ⟨⟨t, hwalk⟩, u, hs, hstop⟩ := h
  obtain ⟨rtt, control⟩ := s
  constructor
  · rintro w ret rfl
    obtain ⟨c, v, l, r, heq, -⟩ := hwalk.placed
    exact ⟨_, VersionWalk.callbackReturn_eq hwalk.shape heq ret⟩
  · intro henabled
    cases control with
    | outside | callback _ => cases henabled
    | loop w =>
      obtain ⟨s', hrun⟩ := VersionWalk.loopRound_runs hwalk
      exact ⟨s', hrun, fun _ => ⟨NULL, rfl, .inl rfl⟩⟩
    | climb w y =>
      obtain ⟨s', hrun, t', hs', ⟨c, v, l, r, heq, -⟩, -⟩ := VersionWalk.climbRound_climbs hs hstop
      refine ⟨s', hrun, fun _ => ⟨v.rth, ?_, ?_⟩⟩
      · rw [TableState.returned]
        dsimp only
        rw [hs'.deref_cell heq]
        rfl
      · by_cases h0 : v.rth = NULL
        · exact .inl h0
        · exact .inr ⟨w.rtn, h0, _, hs'.get_node heq, rfl⟩

end

/-! ## The end of the climb -/

/-- A removal leaves the climb in a smaller tree or at a higher place. -/
theorem Pruned.shorter {dir : RtTable.Dir} {p : Ptr} {v : RtVal} {c : List (Frame RtVal)}
    {l r t' : Tree RtVal} {ps : List Ptr} {ret : Ptr × RtTable.Dir}
    (h : Pruned dir p v c l r t' ps ret) :
    ret.1 = NULL ∨ ∃ d s, plug d s = t' ∧ s ≠ .nil ∧ s.root NULL = ret.1 ∧
      t'.size + d.length < (plug c (.node p v l r)).size + c.length := by
  -- the parent of the hole
  have hup : ∀ {e : List (Frame RtVal)} {S : Tree RtVal} {n : Nat}, (plug e S).size + e.length ≤ n →
      Ctx.top NULL e = NULL ∨ ∃ d s, plug d s = plug e S ∧ s ≠ .nil ∧
        s.root NULL = Ctx.top NULL e ∧ (plug e S).size + d.length < n := by
    intro e S n hn
    cases e with
    | nil => exact .inl rfl
    | cons f e =>
      refine .inr ⟨e, join f.side f.ptr f.val S f.sib, rfl, by simp, by simp, ?_⟩
      rw [List.length_cons] at hn
      omega
  cases h with
  | keep _ _ =>
    apply hup
    rw [size_plug, size_plug]
    simp [size]
  | last => exact .inl rfl
  | @leaf f c _ =>
    refine .inr ⟨c, join f.side f.ptr f.val .nil f.sib, rfl, by simp, by simp, ?_⟩
    rw [plug_cons, plug_cons, size_plug, size_plug]
    simp [size]
    omega
  | @collapse f c _ hsib =>
    have hsize : (plug c f.sib).size + c.length + 2 ≤
        (plug (f :: c) (.node p v .nil .nil)).size + (f :: c).length := by
      rw [plug_cons, size_plug, size_plug]
      simp [size]
      omega
    unfold promoteRet
    cases f.side.flip with
    | left => exact hup (by omega)
    | right => exact .inr ⟨c, f.sib, rfl, hsib, rfl, by omega⟩
  | @promote c l r S s hS hnode =>
    have hsize : (plug c S).size + c.length + 1 ≤ (plug c (.node p v l r)).size + c.length := by
      rw [hnode, size_plug, size_plug, size_join, size]
      omega
    unfold promoteRet
    cases s with
    | left => exact hup (by omega)
    | right => exact .inr ⟨c, S, rfl, hS, rfl, by omega⟩

namespace VersionWalk

variable {rtt : RtTable} {t S : Tree RtVal} {c : List (Frame RtVal)} {w : VersionWalk} {y : Ptr}

/-- What a round of the climb does to the place of the climb; freed nodes stay freed. -/
theorem climbRound_shorter (hs : Shape rtt t) (hlocks : Unlocked t) (heq : plug c S = t)
    (hS : S ≠ .nil) (hroot : S.root NULL = y) :
    Delivers (climbRound rtt w y) fun s' =>
      (∀ q, rtt.nodes.get q = none → s'.rtt.nodes.get q = none) ∧
      (s'.control = .outside ∨ ∃ w' y' t' c' S', s'.control = .climb w' y' ∧ w'.rtn = w.rtn ∧
        Shape s'.rtt t' ∧ Unlocked t' ∧ plug c' S' = t' ∧ S' ≠ .nil ∧ S'.root NULL = y' ∧
        t'.size + c'.length < t.size + c.length) := by
  cases S with
  | nil => exact absurd rfl hS
  | node q v l r =>
    obtain rfl : q = y := hroot
    -- from where the climb is next
    have hnext : ∀ {rtt' : RtTable} {t' : Tree RtVal} (w' : VersionWalk) (next : Ptr),
        Shape rtt' t' → Unlocked t' → w'.rtn = w.rtn →
        (next = NULL ∨ ∃ d s, plug d s = t' ∧ s ≠ .nil ∧ s.root NULL = next ∧
          t'.size + d.length < t.size + c.length) →
        (if next = NULL then Control.outside else .climb w' next) = .outside ∨
          ∃ w'' y' t' c' S', (if next = NULL then Control.outside else .climb w' next) =
              .climb w'' y' ∧ w''.rtn = w.rtn ∧ Shape rtt' t' ∧ Unlocked t' ∧ plug c' S' = t' ∧
            S' ≠ .nil ∧ S'.root NULL = y' ∧ t'.size + c'.length < t.size + c.length := by
      intro rtt' t' w' next hs' hlocks' hw' hplace
      by_cases h0 : next = NULL
      · exact .inl (if_pos h0)
      · obtain ⟨d, s, hd, hne, hnext, hlt⟩ := hplace.resolve_left h0
        exact .inr ⟨w', next, t', d, s, if_neg h0, hw', hs', hlocks', hd, hne, hnext, hlt⟩
    have hlock : v.lock = 0 := hlocks _ (Shape.mem_of_plug heq)
    rw [climbRound, hs.deref_cell heq, exec_bind_ok]
    split
    · obtain ⟨t', ps, ret, rtt', hpr, hres, hs', -, hfreed, -⟩ :=
        hs.removeNode_spec w.dir heq hlock fun f d hc _ _ _ =>
          hlocks _ (heq ▸ hc ▸ Shape.mem_pre_of_frame List.mem_cons_self)
      have hlocks' : Unlocked t' := by
        intro x hx
        rcases hpr.mem_pre (heq ▸ hs.holds.nodup) hx with rfl | ⟨hx, -⟩
        · exact hlock
        · exact hlocks x (heq ▸ hx)
      rw [hres, exec_bind_ok]
      refine delivers_ok.mpr ⟨fun q hq => ?_,
        hnext { w with dir := ret.2 } ret.1 hs' hlocks' rfl (heq ▸ hpr.shorter)⟩
      by_contra hne
      have hlive := (hfreed.dom q (Option.isSome_iff_ne_none.mpr hne)).1
      rw [hq] at hlive
      cases hlive
    · refine delivers_ok.mpr ⟨fun q hq => hq, hnext w (Ctx.top NULL c) hs hlocks rfl ?_⟩
      cases c with
      | nil => exact .inl rfl
      | cons f c => exact .inr ⟨c, _, heq, by simp, by simp, by simp⟩

/-- The climb comes to its end. -/
theorem climb_ends (n : Nat) : ∀ {rtt : RtTable} {t S : Tree RtVal} {c : List (Frame RtVal)}
    {w : VersionWalk} {y : Ptr}, Shape rtt t → Unlocked t → plug c S = t → S ≠ .nil →
    S.root NULL = y → t.size + c.length ≤ n →
    ∃ k s s' w' y', runSteps TableState.step (List.replicate k .round) ⟨rtt, .climb w y⟩ = some s ∧
      s.control = .climb w' y' ∧ w'.rtn = w.rtn ∧ TableState.step .round s = some s' ∧
      s'.control = .outside ∧ ∀ q, rtt.nodes.get q = none → s'.rtt.nodes.get q = none := by
  induction n with
  | zero =>
    intro rtt t S c w y _ _ heq hS _ hn
    have hsize := size_plug c S
    cases S with
    | nil => exact absurd rfl hS
    | node q v l r =>
      rw [heq, size] at hsize
      omega
  | succ n ih =>
    intro rtt t S c w y hs hlocks heq hS hroot hn
    obtain ⟨s', hrun, hfreed, hnext⟩ := climbRound_shorter (w := w) hs hlocks heq hS hroot
    have hstep : TableState.step .round ⟨rtt, .climb w y⟩ = some s' := step_of_exec rfl hrun
    rcases hnext with hout | ⟨w', y', t', c', S', hclimb, hw', hs', hlocks', heq', hS', hy', hlt⟩
    · exact ⟨0, _, s', w, y, rfl, rfl, rfl, hstep, hout, hfreed⟩
    · obtain ⟨rtt', control⟩ := s'
      obtain rfl : control = .climb w' y' := hclimb
      obtain ⟨k, s₁, s₂, w₁, y₁, hruns, hs₁, hw₁, hlast, hout, hkept⟩ :=
        ih hs' hlocks' heq' hS' hy' (by omega) (w := w')
      refine ⟨k + 1, s₁, s₂, w₁, y₁, ?_, hs₁, hw₁.trans hw', hlast, hout,
        fun q hq => hkept q (hfreed q hq)⟩
      rw [List.replicate_succ, runSteps, hstep]
      exact hruns

end VersionWalk

section
variable {s s' : TableState} {w : VersionWalk} {ret : Int}

/-- The walk stops after the callback: the loop ends, and the climb begins at the node it is at. -/
theorem stop_rounds {t : Tree RtVal} (h : WalkOk s t) (hcontrol : s.control = .callback w)
    (hends : ret ≠ 0 ∨ w.lcnt = 0) : ∃ s₁ w₁, TableState.step (.callbackReturn ret) s = some s₁ ∧
      TableState.step .round s₁ = some ⟨s₁.rtt, .climb w₁ w₁.rtn⟩ ∧
      (StopsAtRemoved s (.callbackReturn ret) →
        ∃ n, s₁.rtt.nodes.get w₁.rtn = some n ∧ n.marked = true ∧ n.rtnLeft = NULL) := by
  obtain ⟨rtt, control⟩ := s
  obtain rfl : control = .callback w := hcontrol
  obtain ⟨c, v, l, r, heq, -⟩ := h.placed
  have hback := VersionWalk.callbackReturn_eq h.shape heq ret
  have hrtn : w.rtn ≠ NULL := h.shape.ptr_ne_null (by rw [← heq, mem_ptrs_plug]; simp [ptrs])
  refine ⟨_, (if ret ≠ 0 then { w with lcnt := 0 } else w).goLeft (NodeLayout.cell (l.root NULL)
    (r.root NULL) (Ctx.top NULL c) { v with lock := v.lock - 1 }), step_of_exec rfl hback, ?_, ?_⟩
  rotate_left
  · -- without a left child the walk is still at the node
    rintro ⟨-, n, hn, hmark, hleft⟩
    rw [h.shape.get_node heq] at hn
    obtain rfl := Option.some.inj hn
    have hgo : ∀ w' : VersionWalk, w'.goLeft (NodeLayout.cell (l.root NULL) (r.root NULL)
        (Ctx.top NULL c) { v with lock := v.lock - 1 }) = { w' with dir := .walkright } :=
      fun _ => if_neg (not_not.mpr hleft)
    have hsame : (if ret ≠ 0 then { w with lcnt := 0 } else w).rtn = w.rtn := by
      split <;> rfl
    rw [hgo]
    change ∃ n, (rtt.nodes.set w.rtn _).get (if ret ≠ 0 then { w with lcnt := 0 } else w).rtn =
      some n ∧ _
    rw [hsame, Heap.get_set_self]
    exact ⟨_, rfl, hmark, hleft⟩
  generalize hn : (NodeLayout.cell (l.root NULL) (r.root NULL) (Ctx.top NULL c)
    { v with lock := v.lock - 1 } : RtNode) = n
  have hcount : ((if ret ≠ 0 then { w with lcnt := 0 } else w).goLeft n).lcnt = 0 := by
    rcases hends with hret | hcnt
    · rw [if_pos hret, VersionWalk.goLeft]
      split <;> rfl
    · rw [VersionWalk.goLeft]
      split <;> split <;> first | rfl | exact hcnt
  have hne : ((if ret ≠ 0 then { w with lcnt := 0 } else w).goLeft n).rtn ≠ NULL := by
    rw [VersionWalk.goLeft]
    split
    · next hleft => exact hleft
    · split
      · exact hrtn
      · exact hrtn
  refine step_of_exec rfl ?_
  change VersionWalk.loopRound _ _ = _
  rw [VersionWalk.loopRound, if_neg hne, if_pos hcount]

/-- A removal frees a node without a left child. -/
theorem climbRound_frees {rtt : RtTable} {t : Tree RtVal} {c : List (Frame RtVal)} {p : Ptr}
    {v : RtVal} {r : Tree RtVal} (hs : Shape rtt t) (hlocks : Unlocked t)
    (heq : plug c (.node p v .nil r) = t) (hmark : v.marked = true) :
    Ensures (VersionWalk.climbRound rtt w p) fun s' => s'.rtt.nodes.get p = none := by
  have hlock : v.lock = 0 := hlocks _ (Shape.mem_of_plug heq)
  obtain ⟨t', ps, ret, rtt', hpr, hres, -, -, hfreed, -⟩ :=
    hs.removeNode_spec w.dir heq hlock fun f d hc _ _ _ =>
      hlocks _ (heq ▸ hc ▸ Shape.mem_pre_of_frame List.mem_cons_self)
  have hmem : p ∈ ps := by
    cases hpr with
    | keep hl _ => exact absurd rfl hl
    | last | leaf _ | promote _ _ => exact List.mem_singleton_self p
    | collapse _ _ => simp
  have hgo : (((NodeLayout.cell ((.nil : Tree RtVal).root NULL) (r.root NULL) (Ctx.top NULL c) v :
      RtNode).rtnLock == 0) && (NodeLayout.cell ((.nil : Tree RtVal).root NULL) (r.root NULL)
        (Ctx.top NULL c) v : RtNode).marked) = true := by
    rw [Bool.and_eq_true]
    exact ⟨beq_iff_eq.mpr hlock, hmark⟩
  rw [VersionWalk.climbRound, hs.deref_cell heq, exec_bind_ok, if_pos hgo, hres, exec_bind_ok]
  refine ensures_ok.mpr ?_
  by_contra hne
  exact (hfreed.dom p (Option.isSome_iff_ne_none.mpr hne)).2 hmem

theorem allowed_round (s : TableState) : TableLabel.Allowed (fun _ => false) s .round := trivial

theorem allowed_callbackReturn (s : TableState) (ret : Int) :
    TableLabel.Allowed (fun _ => false) s (.callbackReturn ret) := trivial

/-- In a run of rounds the walk stays safe. -/
theorem ReturnOk.rounds (h : ReturnOk s) {k : Nat}
    (hrun : runSteps TableState.step (List.replicate k .round) s = some s') : ReturnOk s' := by
  have hreached : OpxCommonUtils.Reached TableState.step (fun _ l => l = .round) s s' := by
    apply OpxCommonUtils.Reached.runSteps (List.replicate k .round) _ .init hrun
    intro l hl _
    exact List.eq_of_mem_replicate hl
  refine hreached.invariant h ?_
  rintro s₁ s₂ _ hok rfl hstep
  refine hok.step (allowed_round s₁) ?_ hstep
  unfold StopsAtRemoved
  split
  · next heq => cases heq
  · exact not_false

/-- A walk that stops after a callback ends, and hands back a head of the tree or `NULL` exactly if
the callback has not removed its head, or there is a left child. -/
theorem stop_returns {t : Tree RtVal} (h : WalkOk s t) (hcontrol : s.control = .callback w)
    (hends : ret ≠ 0 ∨ w.lcnt = 0) : ∃ k s₁ s',
      runSteps TableState.step (.callbackReturn ret :: List.replicate k .round) s = some s₁ ∧
      TableState.step .round s₁ = some s' ∧ s'.control = .outside ∧
      (ReturnsWell s₁ s' ↔ ¬ StopsAtRemoved s (.callbackReturn ret)) := by
  obtain ⟨sb, w₁, hback, hloop, hfree⟩ := stop_rounds h hcontrol hends
  obtain ⟨t₁, hwalk₁⟩ := h.step (allowed_callbackReturn s ret) hback
  obtain ⟨t₂, hwalk₂⟩ := hwalk₁.step (allowed_round sb) hloop
  obtain ⟨hlocks, hne, hat⟩ := hwalk₂.placed
  have hstart : ∀ {k : Nat} {s₁ : TableState},
      runSteps TableState.step (List.replicate k .round) ⟨sb.rtt, .climb w₁ w₁.rtn⟩ = some s₁ →
      runSteps TableState.step (.callbackReturn ret :: List.replicate (k + 1) .round) s =
        some s₁ := by
    intro k s₁ hrun
    rw [runSteps, hback, Option.bind_some, List.replicate_succ, runSteps, hloop, Option.bind_some]
    exact hrun
  generalize hrtn : w₁.rtn = p at hat hne hstart hloop hfree
  cases hat with
  | gone => exact absurd rfl hne
  | @node c _ v l r heq _ =>
    by_cases hbad : StopsAtRemoved s (.callbackReturn ret)
    · -- the first round of the climb frees the node of the walk
      obtain ⟨n, hn, hmark, hleft⟩ := hfree hbad
      have hcell : sb.rtt.nodes.get p = _ := hwalk₂.shape.get_node heq
      rw [hn] at hcell
      obtain rfl := Option.some.inj hcell
      obtain rfl : l = .nil :=
        (hwalk₂.shape.root_of_subtree (c := ⟨.left, p, v, r⟩ :: c) heq).mp hleft
      obtain ⟨s₂, hrun, hfreed, hnext⟩ :=
        VersionWalk.climbRound_shorter (w := w₁) hwalk₂.shape hlocks heq (by simp) rfl
      have hgone := climbRound_frees (w := w₁) hwalk₂.shape hlocks heq hmark s₂ hrun
      have hstep : TableState.step .round ⟨sb.rtt, .climb w₁ p⟩ = some s₂ := step_of_exec rfl hrun
      -- what is read at the end is not there
      have hreads : ∀ {s₁ s' : TableState} {w' : VersionWalk} {y' : Ptr},
          s₁.control = .climb w' y' → w'.rtn = p → s'.rtt.nodes.get p = none →
          (ReturnsWell s₁ s' ↔ ¬ StopsAtRemoved s (.callbackReturn ret)) := by
        intro s₁ s' w' y' hs₁ hw' hnone
        refine iff_of_false ?_ (not_not.mpr hbad)
        rintro ⟨rth, hread, -⟩
        rw [TableState.returned, hs₁] at hread
        dsimp only at hread
        rw [hw', Heap.deref, hnone] at hread
        cases hread
      rcases hnext with hout | ⟨w', y', t', c', S', hclimb, hw', hs', hlocks', heq', hS', hy', -⟩
      · exact ⟨1, _, s₂, hstart (k := 0) rfl, hstep, hout, hreads rfl hrtn hgone⟩
      · obtain ⟨rtt', control⟩ := s₂
        obtain rfl : control = .climb w' y' := hclimb
        obtain ⟨k, s₁, s', w'', y'', hruns, hs₁, hw'', hlast, hout, hkept⟩ :=
          VersionWalk.climb_ends _ hs' hlocks' heq' hS' hy' le_rfl (w := w')
        refine ⟨k + 1 + 1, s₁, s', hstart (k := k + 1) ?_, hlast, hout,
          hreads hs₁ (hw''.trans (hw'.trans hrtn)) (hkept p hgone)⟩
        rw [List.replicate_succ, runSteps, hstep]
        exact hruns
    · have hok : ReturnOk s := by
        apply ReturnOk.of_walk ⟨t, h⟩
        intro u
        rw [hcontrol]
        trivial
      obtain ⟨k, s₁, s', w', y', hruns, hs₁, -, hlast, hout, -⟩ :=
        VersionWalk.climb_ends _ hwalk₂.shape hlocks heq (by simp) rfl le_rfl (w := w₁)
      refine ⟨k + 1, s₁, s', hstart hruns, hlast, hout, iff_of_true ?_ hbad⟩
      have hokb : ReturnOk sb := hok.step (allowed_callbackReturn s ret) hbad hback
      have hokc : ReturnOk ⟨sb.rtt, .climb w₁ p⟩ := by
        refine hokb.rounds (k := 1) ?_
        rw [List.replicate_one, runSteps, hloop]
        rfl
      obtain ⟨henabled, hexec⟩ := exec_of_step hlast
      obtain ⟨s'', hexec', hreturns⟩ := (hokc.rounds hruns).walkSafe.round henabled
      obtain rfl := Except.ok.inj (hexec'.symm.trans hexec)
      exact hreturns hout

end

/-- In every run in which no callback that ends its walk removes its head where there is no left
child, walks read no freed node and hand back `NULL` or a head of the tree. A walk that a callback
ends hands back the same exactly if this callback does not do so. -/
theorem versionwalk_returns {marker : Ptr → Bool} {rtt₀ : RtTable} (hnew : NewTable rtt₀) :
    (∀ s, OpxCommonUtils.Reached TableState.step
        (fun s l => l.Allowed marker s ∧ ¬ StopsAtRemoved s l) ⟨rtt₀, .outside⟩ s → WalkSafe s) ∧
    ∀ s w ret, OpxCommonUtils.Reached TableState.step (fun s l => l.Allowed marker s)
        ⟨rtt₀, .outside⟩ s → s.control = .callback w → (ret ≠ 0 ∨ w.lcnt = 0) →
      ∃ k s₁ s',
        runSteps TableState.step (.callbackReturn ret :: List.replicate k .round) s = some s₁ ∧
        TableState.step .round s₁ = some s' ∧ s'.control = .outside ∧
        (ReturnsWell s₁ s' ↔ ¬ StopsAtRemoved s (.callbackReturn ret)) := by
  constructor
  · intro s hreached
    have hok : ReturnOk s := by
      refine hreached.invariant (P := ReturnOk) ⟨⟨_, hnew.walkOk⟩, _, hnew.walkOk.shape, trivial⟩ ?_
      rintro s₁ s₂ label hok ⟨hallow, hnot⟩ hstep
      exact hok.step hallow hnot hstep
    exact hok.walkSafe
  · intro s w ret hreached hcontrol hends
    obtain ⟨t, hwalk⟩ : ∃ t, WalkOk s t := by
      refine hreached.invariant (P := fun s => ∃ t, WalkOk s t) ⟨_, hnew.walkOk⟩ ?_
      rintro s₁ s₂ label ⟨t, hwalk⟩ hallow hstep
      exact hwalk.step hallow hstep
    exact stop_returns hwalk hcontrol hends

theorem newTable_create (maxaddrlen : Nat) (rmfree : Bool) (heads : Ptr → RtHead) :
    NewTable (stdRadixCreate maxaddrlen rmfree heads) := ⟨rfl, fun _ => rfl, rfl⟩

/-- A new table for keys of 32 bits. -/
def sampleNew : TableState := ⟨stdRadixCreate 32 true fun _ => default, .outside⟩

/-- The callback of a walk with the count 1 removes the head of 0/8, which has a left child. -/
def sampleStops : List TableLabel :=
  [.insert .above true 10 (fun _ => 0) 8, .insert .above true 11 (fun _ => 0) 16,
    .versionwalk NULL true 1 0 9, .round, .remove 10]

/-- The walk goes on to the left child and hands back its head. -/
theorem versionwalk_returns_sample : ∃ s, runSteps TableState.step sampleStops sampleNew = some s ∧
    ∃ k s₁ s',
      runSteps TableState.step (.callbackReturn 0 :: List.replicate k .round) s = some s₁ ∧
      TableState.step .round s₁ = some s' ∧ ReturnsWell s₁ s' := by
  have hrun : (runSteps TableState.step sampleStops sampleNew).map (fun s =>
      (s.control, (s.rtt.nodes.get 1).map fun n => (n.marked, n.rtnLeft))) =
      some (Control.callback ⟨1, .walkdown, 0, 0, 9, true⟩, some (true, 3)) := by decide +kernel
  obtain ⟨s, hs, hend⟩ := Option.map_eq_some_iff.mp hrun
  obtain ⟨hcontrol, hnode⟩ := Prod.mk.inj hend
  have hreached := OpxCommonUtils.Reached.runSteps_of_allMeet
    (fun s l => TableLabel.Allowed (fun _ => false) s l) sampleStops .init (by decide +kernel) hs
  obtain ⟨-, hstop⟩ := @versionwalk_returns (fun _ => false) _
    (newTable_create 32 true fun _ => default)
  obtain ⟨k, s₁, s', hruns, hlast, -, hreturns⟩ := hstop s _ 0 hreached hcontrol (.inr rfl)
  refine ⟨s, hs, k, s₁, s', hruns, hlast, hreturns.mpr ?_⟩
  unfold StopsAtRemoved
  rw [hcontrol]
  rintro ⟨-, n, hn, -, hleft⟩
  obtain ⟨m, hm, hfields⟩ := Option.map_eq_some_iff.mp hnode
  obtain rfl := Option.some.inj (hm.symm.trans hn)
  exact absurd (hleft.symm.trans (Prod.mk.inj hfields).2) (by decide)

/-- The callback of a walk removes the only head and ends the walk. -/
def sampleEnds : List TableLabel :=
  [.insert .above true 10 (fun _ => 0) 8, .versionwalk NULL true 0 0 9, .round, .remove 10,
    .callbackReturn 1, .round]

/-- The climb frees the node of this head, and then its head is read. -/
theorem versionwalk_reads_freed : ¬ ∀ s, OpxCommonUtils.Reached TableState.step
    (fun s l => TableLabel.Allowed (fun _ => false) s l) sampleNew s → WalkSafe s := by
  intro hclaim
  have hrun : (runSteps TableState.step sampleEnds sampleNew).map (fun s => (s.enabled .round,
      (s.exec .round).toOption.map fun s' => (s'.control, (s.returned s').toOption))) =
      some (true, some (Control.outside, none)) := by decide +kernel
  obtain ⟨s, hs, hend⟩ := Option.map_eq_some_iff.mp hrun
  obtain ⟨henabled, hlast⟩ := Prod.mk.inj hend
  have hreached := OpxCommonUtils.Reached.runSteps_of_allMeet
    (fun s l => TableLabel.Allowed (fun _ => false) s l) sampleEnds .init (by decide +kernel) hs
  obtain ⟨s', hexec, hreturns⟩ := (hclaim s hreached).round henabled
  rw [hexec] at hlast
  obtain ⟨hout, hread⟩ := Prod.mk.inj (Option.some.inj hlast)
  obtain ⟨rth, hrth, -⟩ := hreturns hout
  rw [hrth] at hread
  cases hread

end OpxCommonUtils.Radix
