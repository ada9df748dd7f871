import OpxCommonUtils.Radix.Proofs.WalkPlace

/-!
# A version walk keeps the table in shape

Every step of the machine, of the walk and of its user alike, keeps `WalkOk`: the table has its
shape, and the marks and locks are where the walk put them. `HeadsKept` says which heads a step
leaves in the tree, and which it brings.
-/

namespace OpxCommonUtils.Radix

open Tree Trie LinkTree

/-- The table of shape `t` is that of a program where `control` says. -/
structure WalkOk (s : TableState) (t : Tree RtVal) : Prop where
  shape : Shape s.rtt t
  plain : s.rtt.rttDebug = false
  placed : Placed t s.control

/-- From `t` to `t'` the unmarked heads stay, but for `gone`, and stay unmarked; the heads of `t'`
are heads of `t` or `fresh`. -/
structure HeadsKept (t t' : Tree RtVal) (gone fresh : Ptr → Prop) : Prop where
  old : ∀ x ∈ t.pre, x.2.rth ≠ NULL → x.2.marked = false → ¬gone x.2.rth →
    ∃ y ∈ t'.pre, y.2.rth = x.2.rth ∧ y.2.marked = false
  new : ∀ y ∈ t'.pre, y.2.rth ≠ NULL → fresh y.2.rth ∨ ∃ x ∈ t.pre, x.2.rth = y.2.rth

/-- The step led to a table that keeps the heads of `t`. -/
def Kept (t : Tree RtVal) (gone fresh : Ptr → Prop) (s' : TableState) : Prop :=
  ∃ t', WalkOk s' t' ∧ HeadsKept t t' gone fresh

/-- No head. -/
def noHead : Ptr → Prop := fun _ => False

theorem HeadsKept.refl (t : Tree RtVal) (gone fresh : Ptr → Prop) : HeadsKept t t gone fresh where
  old x hx _ hm _ := ⟨x, hx, rfl, hm⟩
  new y hy _ := .inr ⟨y, hy, rfl⟩

/-! ## A node found through its address -/

namespace Shape

variable {rtt rtt' : RtTable} {t : Tree RtVal} {c : List (Frame RtVal)} {p : Ptr} {v : RtVal}
  {l r : Tree RtVal}

/-- A live cell is a node of the tree. -/
theorem locate (hs : Shape rtt t) {n : RtNode} (hget : rtt.nodes.get p = some n) :
    ∃ c v l r, plug c (.node p v l r) = t ∧
      n = NodeLayout.cell (l.root NULL) (r.root NULL) (Ctx.top NULL c) v := by
  obtain ⟨c, v, l, r, heq⟩ := exists_plug_of_mem (hs.owned p n hget)
  have hget' := hs.get_node heq.symm
  rw [hget] at hget'
  exact ⟨c, v, l, r, heq.symm, Option.some.inj hget'⟩

theorem mem_of_plug (heq : plug c (.node p v l r) = t) : (p, v) ∈ t.pre := by
  rw [← heq, mem_pre_plug]
  simp [pre]

/-- Flags, lock and version of a node may change. -/
theorem setVal (hs : Shape rtt t) (heq : plug c (.node p v l r) = t) {v' : RtVal}
    (hbit : v'.bit = v.bit) (htbit : v'.tbit = v.tbit) (hrth : v'.rth = v.rth)
    (hnodes : rtt'.nodes =
      rtt.nodes.set p (NodeLayout.cell (l.root NULL) (r.root NULL) (Ctx.top NULL c) v'))
    (hroot : rtt'.rttRoot = rtt.rttRoot) (hheads : rtt'.heads = rtt.heads) :
    Shape rtt' (plug c (.node p v' l r)) := by
  subst heq
  have hother : ∀ x ∈ (plug c (.node p v' l r)).pre,
      x = (p, v') ∨ x ∈ (plug c (.node p v l r)).pre := fun x hx =>
    (mem_pre_of_setVal hs.holds.nodup hx).imp_right And.left
  have hself := hs.linked (p, v) (mem_of_plug rfl)
  refine ⟨?_, ?_, fun x hx => ?_, fun q n hq => ?_⟩
  · rw [hnodes, hroot]
    exact Holds.setVal hs.holds v'
  · rw [hheads]
    obtain ⟨k, hc, ht⟩ := hs.wf.split
    obtain ⟨key, h1, h2, h3, h4, h5, h6⟩ := wf_node.mp ht
    have hkey : (view rtt.heads).key v' = (view rtt.heads).key v := by simp [view, hrth, hbit]
    exact hc.plug (.node h1 (h2.trans hbit.symm) (hkey ▸ h3) (hkey ▸ h4) h5 h6) (by simp)
  · rw [hheads]
    rcases hother x hx with rfl | hx
    · exact ⟨by rw [htbit, hbit]; exact hself.tbit, fun h0 => hrth ▸ hself.addr (hrth ▸ h0),
        fun h0 => hrth ▸ hself.rtn (hrth ▸ h0)⟩
    · exact hs.linked x hx
  · rw [hnodes, Heap.get_set] at hq
    rw [mem_ptrs_plug]
    split at hq
    · next hqp => exact .inl (by simp [ptrs, hqp])
    · have hold := hs.owned q n hq
      rw [mem_ptrs_plug] at hold
      exact hold.imp_left fun h => by simpa [ptrs] using h

/-- The heads of the table are the same when only flags, lock and version of a node change. -/
theorem headsKept_setVal (hs : Shape rtt t) (v' : RtVal) (heq : plug c (.node p v l r) = t)
    (hrth : v'.rth = v.rth) {gone : Ptr → Prop}
    (hmark : v.marked = false → v'.marked = false ∨ gone v.rth) :
    HeadsKept t (plug c (.node p v' l r)) gone noHead := by
  subst heq
  have hnd := hs.holds.nodup
  have hnd' : (plug c (.node p v' l r)).ptrs.Nodup := by
    rw [nodup_plug] at hnd ⊢
    exact hnd
  constructor
  · intro x hx _ hm hgone
    rcases mem_pre_of_setVal (v := v') hnd' hx with rfl | ⟨hx, -⟩
    · exact ⟨(p, v'), mem_of_plug rfl, hrth, (hmark hm).resolve_right hgone⟩
    · exact ⟨x, hx, rfl, hm⟩
  · intro y hy _
    rcases mem_pre_of_setVal hnd hy with rfl | ⟨hy, -⟩
    · exact .inr ⟨(p, v), mem_of_plug rfl, hrth.symm⟩
    · exact .inr ⟨y, hy, rfl⟩

/-- A removal takes out one head and brings none. -/
theorem headsKept_pruned (hs : Shape rtt t) (heq : plug c (.node p v l r) = t)
    {dir : RtTable.Dir} {t' : Tree RtVal} {ps : List Ptr} {ret : Ptr × RtTable.Dir}
    (h : Pruned dir p v c l r t' ps ret) {gone : Ptr → Prop}
    (hgone : v.marked = false → gone v.rth) : HeadsKept t t' gone noHead := by
  subst heq
  constructor
  · intro x hx h0 hm hx'
    obtain ⟨a, ha⟩ := (hs.linked x hx).addr h0
    have hin := mem_entries.mpr ⟨hx, key_view_of_addr h0 ha⟩
    rcases List.mem_append.mp ((h.entries_perm _).mem_iff.mp hin) with hin | hin
    · obtain ⟨k, -, hk⟩ := Option.map_eq_some_iff.mp (Option.mem_toList.mp hin)
      obtain rfl : x = (p, v) := (congrArg Prod.snd hk).symm
      exact absurd (hgone hm) hx'
    · exact ⟨x, (mem_entries.mp hin).1, rfl, hm⟩
  · intro y hy h0
    rcases h.mem_pre hs.holds.nodup hy with rfl | ⟨hy, -⟩
    · exact absurd rfl h0
    · exact .inr ⟨y, hy, rfl⟩

end Shape

/-! ## Rounds of the walk -/

/-- What a step does: it keeps the heads but for `gone`, brings at most `fresh` ones, leaves the
change list alone, and hands marked heads or `gone` ones over. -/
def StepOk (gone fresh : Ptr → Prop) (s : TableState) (t : Tree RtVal) (s' : TableState) : Prop :=
  Kept t gone fresh s' ∧
    ∃ freed, SameChanges s.rtt s'.rtt freed ∧ ∀ x ∈ freed, MarkedHead s.rtt x ∨ gone x

/-- The walker moves, and the table stays as it is. -/
theorem StepOk.move {gone fresh : Ptr → Prop} {rtt : RtTable} {t : Tree RtVal}
    {control control' : Control} (h : WalkOk ⟨rtt, control⟩ t) (hplaced : Placed t control') :
    StepOk gone fresh ⟨rtt, control⟩ t ⟨rtt, control'⟩ :=
  ⟨⟨t, ⟨h.shape, h.plain, hplaced⟩, .refl _ _ _⟩, [], .refl rtt, by simp⟩

section
variable {rtt : RtTable} {t : Tree RtVal} {c : List (Frame RtVal)} {p : Ptr} {v : RtVal}
  {l r : Tree RtVal}

/-- The cell of a node as the code reads it. -/
theorem Shape.deref_cell (hs : Shape rtt t) (heq : plug c (.node p v l r) = t) :
    rtt.nodes.deref p =
      .ok (NodeLayout.cell (l.root NULL) (r.root NULL) (Ctx.top NULL c) v) :=
  Heap.deref_ok (hs.get_node heq)

/-- A walker at a node is not at the null address. -/
theorem WalkerAt.noMarks (hs : Shape rtt t) (h : WalkerAt t NULL) : NoMarks t := by
  generalize hnull : NULL = q at h
  cases h with
  | gone h => exact h
  | @node c q v l r heq _ =>
    refine absurd hnull.symm (hs.ptr_ne_null ?_)
    rw [← heq, mem_ptrs_plug]
    simp [ptrs]

/-- The walker goes on to the left, or turns to the right. -/
theorem WalkerAt.goLeft (heq : plug c (.node p v l r) = t)
    (hmarks : MarksAbove c (.node p v l r)) (w : VersionWalk) (hw : w.rtn = p)
    {n : RtNode} (hleft : n.rtnLeft = l.root NULL) : WalkerAt t (w.goLeft n).rtn := by
  unfold VersionWalk.goLeft
  split
  · next hne =>
    rw [hleft] at hne ⊢
    have hl : l ≠ .nil := fun h => hne (by rw [h]; rfl)
    exact .of_subtree (c := ⟨.left, p, v, r⟩ :: c) heq hl hmarks.left
  · exact hw ▸ .node heq hmarks

/-- A marked node goes. -/
theorem WalkOk.removeMarked (hs : Shape rtt t)
    (hplain : rtt.rttDebug = false) (hlocks : Unlocked t)
    (heq : plug c (.node p v l r) = t) (hmarks : MarksAbove c (.node p v l r))
    (hmark : v.marked = true) (dir : RtTable.Dir) :
    Ensures (rtt.removeNode p dir) fun res =>
      (∃ t', Shape res.2.2 t' ∧ res.2.2.rttDebug = false ∧ Unlocked t' ∧ WalkerAt t' res.1 ∧
        HeadsKept t t' noHead noHead) ∧
      ∃ freed, SameChanges rtt res.2.2 freed ∧ ∀ x ∈ freed, MarkedHead rtt x ∨ noHead x := by
  have hmem : (p, v) ∈ t.pre := Shape.mem_of_plug heq
  obtain ⟨t', ps, ret, rtt', hpr, hres, hs', -, hfreed, -⟩ :=
    hs.removeNode_spec dir heq (hlocks _ hmem) fun f d hc _ _ _ =>
      hlocks _ (heq ▸ hc ▸ Shape.mem_pre_of_frame List.mem_cons_self)
  intro res hrun
  obtain ⟨freed, hsame, hof⟩ := rtt.removeNode_same p dir res hrun
  rw [hres] at hrun
  obtain rfl := Except.ok.inj hrun
  have hnd : (plug c (.node p v l r)).ptrs.Nodup := heq ▸ hs.holds.nodup
  obtain ⟨-, hdebug, -⟩ := hfreed.config
  refine ⟨⟨t', hs', hdebug.trans hplain, fun x hx => ?_,
    hpr.walkerAt hnd hmarks, hs.headsKept_pruned heq hpr fun h => ?_⟩, freed, hsame,
    fun x hx => ?_⟩
  · rcases hpr.mem_pre hnd hx with rfl | ⟨hx, -⟩
    · exact hlocks (p, v) hmem
    · exact hlocks x (heq ▸ hx)
  · rw [hmark] at h
    cases h
  · obtain ⟨h0, n, hn, hrth⟩ := hof x hx
    refine .inl ⟨h0, p, n, hn, hrth, ?_⟩
    rw [hs.get_node heq] at hn
    obtain rfl := Option.some.inj hn
    exact hmark

end

namespace VersionWalk

variable {rtt : RtTable} {t : Tree RtVal} {w : VersionWalk}

theorem walkDown_ok (h : WalkOk ⟨rtt, .loop w⟩ t) (h0 : w.rtn ≠ NULL) :
    Ensures (walkDown rtt w) (StepOk noHead noHead ⟨rtt, .loop w⟩ t) := by
  obtain ⟨hlocks, hat⟩ := h.placed
  generalize hrtn : w.rtn = rtn at hat h0
  cases hat with
  | gone => exact absurd rfl h0
  | @node c _ v l r heq hmarks =>
    have hat : WalkerAt t rtn := .node heq hmarks
    unfold walkDown
    rw [hrtn, h.shape.deref_cell heq, exec_bind_ok]
    split
    · exact ensures_ok.mpr (.move h ⟨hlocks, hat⟩)
    split
    · next hcall =>
      -- the callback's node is locked
      have hv : v.rth ≠ NULL := by
        simp only [VersionWalk.calls, Bool.and_eq_true, bne_iff_ne] at hcall
        exact hcall.1.1.1
      rw [Heap.update_ok (h.shape.get_node heq), exec_bind_ok]
      let v' : RtVal := { v with lock := v.lock + 1 }
      let h' : Heap RtNode := rtt.nodes.set rtn
        (NodeLayout.cell (l.root NULL) (r.root NULL) (Ctx.top NULL c) v')
      have hs' : Shape { rtt with nodes := h' } (plug c (.node rtn v' l r)) :=
        h.shape.setVal heq rfl rfl rfl rfl rfl rfl
      have hnd : (plug c (.node rtn v l r)).ptrs.Nodup := heq ▸ h.shape.holds.nodup
      refine ensures_ok.mpr ⟨⟨_, ⟨hs', h.plain, ?_⟩,
        h.shape.headsKept_setVal v' heq rfl .inl⟩,
        [], .of_eq rfl rfl rfl rfl, by simp⟩
      refine ⟨c, v', l, r, rfl, hmarks.setVal v' hnd, hv, ?_, fun x hx hne => ?_⟩
      · have hlock : v.lock = 0 := hlocks (rtn, v) (Shape.mem_of_plug heq)
        simp [v', hlock]
      · rcases mem_pre_of_setVal hnd hx with rfl | ⟨hx, -⟩
        · exact absurd rfl hne
        · exact hlocks x (heq ▸ hx)
    · exact ensures_ok.mpr (.move h ⟨hlocks, WalkerAt.goLeft heq hmarks w hrtn rfl⟩)

/-- What the return of the callback does: the node is unlocked, and the walk goes on to the left. -/
theorem callbackReturn_eq (hs : Shape rtt t) {c : List (Frame RtVal)} {v : RtVal} {l r : Tree RtVal}
    (heq : plug c (.node w.rtn v l r) = t) (ret : Int) :
    callbackReturn rtt w ret = .ok ⟨
      { rtt with
        nodes := rtt.nodes.set w.rtn (NodeLayout.cell (l.root NULL) (r.root NULL) (Ctx.top NULL c)
          { v with lock := v.lock - 1 }) },
      .loop ((if ret ≠ 0 then { w with lcnt := 0 } else w).goLeft
        (NodeLayout.cell (l.root NULL) (r.root NULL) (Ctx.top NULL c)
          { v with lock := v.lock - 1 }))⟩ := by
  let v' : RtVal := { v with lock := v.lock - 1 }
  let h' : Heap RtNode := rtt.nodes.set w.rtn
    (NodeLayout.cell (l.root NULL) (r.root NULL) (Ctx.top NULL c) v')
  let w' : VersionWalk := if ret ≠ 0 then { w with lcnt := 0 } else w
  have hw' : w'.rtn = w.rtn := by
    simp only [w']
    split <;> rfl
  have hs' : Shape { rtt with nodes := h' } (plug c (.node w.rtn v' l r)) :=
    hs.setVal heq rfl rfl rfl rfl rfl rfl
  have hupdate : rtt.nodes.update w'.rtn (fun m => { m with rtnLock := m.rtnLock - 1 }) = .ok h' := by
    rw [hw', Heap.update_ok (hs.get_node heq)]
    rfl
  have hderef : h'.deref w'.rtn =
      .ok (NodeLayout.cell (l.root NULL) (r.root NULL) (Ctx.top NULL c) v') := by
    rw [hw']
    exact hs'.deref_cell rfl
  unfold callbackReturn
  show (rtt.nodes.update w'.rtn _ >>= _) = _
  rw [hupdate, exec_bind_ok]
  show (h'.deref w'.rtn >>= _) = _
  rw [hderef]
  rfl

theorem callbackReturn_ok (h : WalkOk ⟨rtt, .callback w⟩ t) (ret : Int) :
    Ensures (callbackReturn rtt w ret) (StepOk noHead noHead ⟨rtt, .callback w⟩ t) := by
  obtain ⟨c, v, l, r, heq, hmarks, hv, hlock, hothers⟩ := h.placed
  let v' : RtVal := { v with lock := v.lock - 1 }
  let h' : Heap RtNode := rtt.nodes.set w.rtn
    (NodeLayout.cell (l.root NULL) (r.root NULL) (Ctx.top NULL c) v')
  let w' : VersionWalk := if ret ≠ 0 then { w with lcnt := 0 } else w
  have hw' : w'.rtn = w.rtn := by
    simp only [w']
    split <;> rfl
  have hs' : Shape { rtt with nodes := h' } (plug c (.node w.rtn v' l r)) :=
    h.shape.setVal heq rfl rfl rfl rfl rfl rfl
  have hnd : (plug c (.node w.rtn v l r)).ptrs.Nodup := heq ▸ h.shape.holds.nodup
  rw [callbackReturn_eq h.shape heq]
  refine ensures_ok.mpr ⟨⟨_, ⟨hs', h.plain, fun x hx => ?_, ?_⟩,
    h.shape.headsKept_setVal v' heq rfl .inl⟩, [], .of_eq rfl rfl rfl rfl, by simp⟩
  · rcases mem_pre_of_setVal hnd hx with rfl | ⟨hx, hne⟩
    · simp [v', hlock]
    · exact hothers x (heq ▸ hx) hne
  · exact WalkerAt.goLeft rfl (hmarks.setVal v' hnd) w' hw' rfl

theorem walkRight_ok (h : WalkOk ⟨rtt, .loop w⟩ t) (h0 : w.rtn ≠ NULL) :
    Ensures (walkRight rtt w) (StepOk noHead noHead ⟨rtt, .loop w⟩ t) := by
  obtain ⟨hlocks, hat⟩ := h.placed
  generalize hrtn : w.rtn = rtn at hat h0
  cases hat with
  | gone => exact absurd rfl h0
  | @node c _ v l r heq hmarks =>
    have hat : WalkerAt t rtn := .node heq hmarks
    unfold walkRight
    rw [hrtn, h.shape.deref_cell heq, exec_bind_ok]
    split
    · exact ensures_ok.mpr (.move h ⟨hlocks, hat⟩)
    · next hne =>
      have hr : r ≠ .nil := fun hnil => hne (by rw [hnil]; rfl)
      exact ensures_ok.mpr (.move h ⟨hlocks,
        WalkerAt.of_subtree (c := ⟨.right, rtn, v, l⟩ :: c) heq hr hmarks.right⟩)

/-- Above the walker's node. -/
theorem parent_ok (hs : Shape rtt t) {c : List (Frame RtVal)} {p : Ptr} {v : RtVal}
    {l r : Tree RtVal} (heq : plug c (.node p v l r) = t)
    (hmarks : MarksAbove c (.node p v l r)) (hlocks : Unlocked t)
    (hnot : ¬((v.lock == 0) && v.marked) = true) : WalkerAt t (Ctx.top NULL c) := by
  refine .up hs.holds.nodup heq hmarks fun _ => ?_
  have hlock : v.lock = 0 := hlocks (p, v) (Shape.mem_of_plug heq)
  simpa [hlock] using hnot

theorem walkUp_ok (h : WalkOk ⟨rtt, .loop w⟩ t) (h0 : w.rtn ≠ NULL) :
    Ensures (walkUp rtt w) (StepOk noHead noHead ⟨rtt, .loop w⟩ t) := by
  obtain ⟨hlocks, hat⟩ := h.placed
  generalize hrtn : w.rtn = rtn at hat h0
  cases hat with
  | gone => exact absurd rfl h0
  | @node c p v l r heq hmarks =>
    unfold walkUp
    rw [hrtn, h.shape.deref_cell heq, exec_bind_ok]
    split
    · next hgo =>
      have hmark : v.marked = true := (Bool.and_eq_true _ _ ▸ hgo).2
      refine .bind (WalkOk.removeMarked h.shape h.plain hlocks heq hmarks hmark w.dir) ?_
      rintro ⟨ret, dir, rtt'⟩ ⟨⟨t', hs', hplain, hlocks', hat', hkept⟩, hfreed⟩
      exact ensures_ok.mpr ⟨⟨t', ⟨hs', hplain, hlocks', hat'⟩, hkept⟩, hfreed⟩
    · next hstay =>
      exact .bindAny fun left => ensures_ok.mpr
        (.move h ⟨hlocks, parent_ok h.shape heq hmarks hlocks hstay⟩)

theorem loopRound_ok (h : WalkOk ⟨rtt, .loop w⟩ t) :
    Ensures (loopRound rtt w) (StepOk noHead noHead ⟨rtt, .loop w⟩ t) := by
  obtain ⟨hlocks, hat⟩ := h.placed
  unfold loopRound
  split
  · next h0 =>
    exact ensures_ok.mpr (.move h ⟨hlocks, WalkerAt.noMarks h.shape (h0 ▸ hat)⟩)
  · next h0 =>
    split
    · exact ensures_ok.mpr (.move h ⟨hlocks, h0, hat⟩)
    split
    · exact walkDown_ok h h0
    · exact walkRight_ok h h0
    · exact walkUp_ok h h0

theorem climbRound_ok {y : Ptr} (h : WalkOk ⟨rtt, .climb w y⟩ t) :
    Ensures (climbRound rtt w y) (StepOk noHead noHead ⟨rtt, .climb w y⟩ t) := by
  obtain ⟨hlocks, h0, hat⟩ := h.placed
  cases hat with
  | gone => exact absurd rfl h0
  | @node c p v l r heq hmarks =>
    have hplaced : ∀ {rtt' : RtTable} {t' : Tree RtVal} {q : Ptr} (w' : VersionWalk),
        Shape rtt' t' → Unlocked t' → WalkerAt t' q →
        Placed t' (if q = NULL then .outside else .climb w' q) := by
      intro rtt' t' q w' hs' hlocks' hat'
      split
      · next hq => exact ⟨hlocks', WalkerAt.noMarks hs' (hq ▸ hat')⟩
      · next hq => exact ⟨hlocks', hq, hat'⟩
    unfold climbRound
    rw [h.shape.deref_cell heq, exec_bind_ok]
    split
    · next hgo =>
      have hmark : v.marked = true := (Bool.and_eq_true _ _ ▸ hgo).2
      refine .bind (WalkOk.removeMarked h.shape h.plain hlocks heq hmarks hmark w.dir) ?_
      rintro ⟨ret, dir, rtt'⟩ ⟨⟨t', hs', hplain, hlocks', hat', hkept⟩, hfreed⟩
      exact ensures_ok.mpr ⟨⟨t', ⟨hs', hplain, hplaced _ hs' hlocks' hat'⟩, hkept⟩, hfreed⟩
    · next hstay =>
      exact ensures_ok.mpr (.move h (hplaced w h.shape hlocks
        (parent_ok h.shape heq hmarks hlocks hstay)))

end VersionWalk

end OpxCommonUtils.Radix
