import OpxCommonUtils.RbTree.Proofs.Run

/-!
# Iteration by key

The loop `d = getfirst(t); while (d) d = getnext(t, d)`. The search for the current user node
answers the same for all that compare equal, so the loop covers the tree exactly when no two
user nodes do.
-/

namespace OpxCommonUtils.RbTree

open Tree RbtreeTable TreeOp

/-- The user nodes that the loop visits from `d` on. -/
def iterateFrom (rbtt : RbtreeTable) : Nat → Ptr → Exec (List Ptr)
  | 0, _ => .error .diverges
  | fuel + 1, d => do
    if d = NULL then return []
    let next ← rbtt.stdRbtreeGetnext d
    let rest ← iterateFrom rbtt fuel next
    return d :: rest

/-- The loop from the first user node on. -/
def iterate (rbtt : RbtreeTable) (fuel : Nat) : Exec (List Ptr) := do
  iterateFrom rbtt fuel (← rbtt.stdRbtreeGetfirst)

/-- The loop ends, in order, and has visited every user node once. -/
def Covers (rbtt : RbtreeTable) (ds : List Ptr) : Prop :=
  ∃ fuel vs, iterate rbtt fuel = .ok vs ∧ vs.Perm ds ∧
    vs.Pairwise fun d e => rbtt.rbttCompare d e ≤ 0

/-! ## Equal keys -/

section Equal

variable {rbtt : RbtreeTable} {d e : Ptr}

theorem getexactLoop_congr (hcmp : TotalPreorder rbtt.rbttCompare)
    (heq : rbtt.rbttCompare d e = 0) (fuel : Nat) :
    ∀ x, rbtt.getexactLoop d fuel x = rbtt.getexactLoop e fuel x := by
  induction fuel with
  | zero => exact fun _ => rfl
  | succ fuel ih =>
    intro x
    unfold getexactLoop
    by_cases hx : x = NIL
    · rw [if_pos hx, if_pos hx]
    · rw [if_neg hx, if_neg hx]
      refine bind_congr fun w => ?_
      rw [if_congr (hcmp.eq_congr heq w) rfl rfl, if_congr (hcmp.lt_congr heq w) rfl rfl]
      simp only [ih]

theorem getexactornextLoop_congr (hcmp : TotalPreorder rbtt.rbttCompare)
    (heq : rbtt.rbttCompare d e = 0) (fuel : Nat) :
    ∀ x, rbtt.getexactornextLoop d fuel x = rbtt.getexactornextLoop e fuel x := by
  induction fuel with
  | zero => exact fun _ => rfl
  | succ fuel ih =>
    intro x
    unfold getexactornextLoop
    by_cases hx : x = NIL
    · rw [if_pos hx, if_pos hx]
    · rw [if_neg hx, if_neg hx]
      refine bind_congr fun w => ?_
      rw [if_congr (hcmp.eq_congr heq w) rfl rfl, if_congr (hcmp.lt_congr heq w) rfl rfl]
      simp only [ih]

/-- The next user node depends on the key only. -/
theorem stdRbtreeGetnext_congr (hcmp : TotalPreorder rbtt.rbttCompare)
    (heq : rbtt.rbttCompare d e = 0) (hd : d ≠ NULL) (he : e ≠ NULL) :
    rbtt.stdRbtreeGetnext d = rbtt.stdRbtreeGetnext e := by
  have hblock : rbtt.debugBlock d = rbtt.debugBlock e := by
    rw [debugBlock, debugBlock, bne_iff_ne.mpr hd, bne_iff_ne.mpr he]
  have hexact : rbtt.getexactNode d = rbtt.getexactNode e := by
    rw [getexactNode, getexactNode, hblock, getexactLoop_congr hcmp heq]
  have hnext : rbtt.getexactornextNode d = rbtt.getexactornextNode e := by
    rw [getexactornextNode, getexactornextNode, hblock, getexactornextLoop_congr hcmp heq]
  rw [stdRbtreeGetnext, stdRbtreeGetnext, hexact, hnext, if_neg hd, if_neg he]

/-- A run of the loop does not depend on the fuel. -/
theorem iterateFrom_unique (fuel : Nat) :
    ∀ {fuel' : Nat} {x : Ptr} {vs vs' : List Ptr}, iterateFrom rbtt fuel x = .ok vs →
      iterateFrom rbtt fuel' x = .ok vs' → vs = vs' := by
  induction fuel with
  | zero => intro _ _ _ _ h; cases h
  | succ fuel ih =>
    intro fuel' x vs vs' h h'
    cases fuel' with
    | zero => cases h'
    | succ fuel' =>
      rw [iterateFrom] at h h'
      by_cases hx : x = NULL
      · rw [if_pos hx] at h h'
        exact (Except.ok.inj h).symm.trans (Except.ok.inj h')
      · rw [if_neg hx] at h h'
        obtain ⟨next, hnext, h⟩ := exec_bind_eq_ok.mp h
        obtain ⟨rest, hrest, h⟩ := exec_bind_eq_ok.mp h
        rw [hnext, exec_bind_ok] at h'
        obtain ⟨rest', hrest', h'⟩ := exec_bind_eq_ok.mp h'
        rw [← Except.ok.inj h, ← Except.ok.inj h', ih hrest hrest']

/-- What the loop visits after one of its user nodes is what it visits from there on. -/
theorem iterateFrom_suffix {vs : List Ptr} :
    ∀ (us : List Ptr) {fuel : Nat} {x : Ptr}, iterateFrom rbtt fuel x = .ok (us ++ d :: vs) →
      d ≠ NULL ∧ ∃ fuel' next, rbtt.stdRbtreeGetnext d = .ok next ∧
        iterateFrom rbtt fuel' next = .ok vs := by
  intro us fuel
  induction fuel generalizing us with
  | zero => intro _ h; cases h
  | succ fuel ih =>
    intro x h
    rw [iterateFrom] at h
    by_cases hx : x = NULL
    · rw [if_pos hx] at h
      simp at h
    · rw [if_neg hx] at h
      obtain ⟨next, hnext, h⟩ := exec_bind_eq_ok.mp h
      obtain ⟨rest, hrest, h⟩ := exec_bind_eq_ok.mp h
      have hlist := Except.ok.inj h
      cases us with
      | nil =>
        obtain ⟨rfl, rfl⟩ := List.cons.inj hlist
        exact ⟨hx, fuel, next, hnext, hrest⟩
      | cons u us =>
        obtain ⟨-, rfl⟩ := List.cons.inj hlist
        exact ih us hrest

/-- A run that visits two user nodes with equal keys goes on for ever. -/
theorem iterateFrom_ne (hcmp : TotalPreorder rbtt.rbttCompare) {fuel : Nat} {us vs : List Ptr}
    (h : iterateFrom rbtt fuel d = .ok (d :: (us ++ e :: vs))) : rbtt.rbttCompare d e ≠ 0 := by
  intro heq
  obtain ⟨hd, fuel₁, next₁, hnext₁, h₁⟩ := iterateFrom_suffix [] h
  obtain ⟨he, fuel₂, next₂, hnext₂, h₂⟩ := iterateFrom_suffix (d :: us) h
  rw [stdRbtreeGetnext_congr hcmp heq hd he, hnext₂] at hnext₁
  obtain rfl := Except.ok.inj hnext₁
  have hlen := congrArg List.length (iterateFrom_unique fuel₁ h₁ h₂)
  simp only [List.length_append, List.length_cons] at hlen
  omega

theorem iterateFrom_pairwise (hcmp : TotalPreorder rbtt.rbttCompare) {fuel : Nat} :
    ∀ {x : Ptr} {vs : List Ptr}, iterateFrom rbtt fuel x = .ok vs →
      vs.Pairwise fun d e => rbtt.rbttCompare d e ≠ 0 := by
  induction fuel with
  | zero => intro _ _ h; cases h
  | succ fuel ih =>
    intro x vs h
    have hrun := h
    rw [iterateFrom] at h
    by_cases hx : x = NULL
    · rw [if_pos hx] at h
      obtain rfl := Except.ok.inj h
      exact List.Pairwise.nil
    · rw [if_neg hx] at h
      obtain ⟨next, -, h⟩ := exec_bind_eq_ok.mp h
      obtain ⟨rest, hrest, h⟩ := exec_bind_eq_ok.mp h
      obtain rfl := Except.ok.inj h
      refine List.pairwise_cons.mpr ⟨fun e he => ?_, ih hrest⟩
      obtain ⟨us, ws, rfl⟩ := List.append_of_mem he
      exact iterateFrom_ne hcmp hrun

end Equal

/-! ## Distinct keys -/

/-- No two elements compare equal. -/
def Distinct (cmp : Ptr → Ptr → Int) (ds : List Ptr) : Prop := ds.Pairwise fun d e => cmp d e ≠ 0

section Distinct

variable {rbtt : RbtreeTable} {t : Tree RbVal}

/-- The next user node is the one behind in the sequence. -/
theorem stdRbtreeGetnext_spec (hs : Sound rbtt t) (hcmp : TotalPreorder rbtt.rbttCompare)
    (hdist : Distinct rbtt.rbttCompare ((seq t).map Prod.snd)) {xs ys : List (Ptr × Ptr)}
    {p d : Ptr} (hseq : seq t = xs ++ (p, d) :: ys) :
    rbtt.stdRbtreeGetnext d = .ok (ys.head?.elim NULL Prod.snd) := by
  have hd : d ≠ NULL := hs.stored (p, d) (by simp [hseq])
  have hvalid := validateHandle_ok hs.magic
  obtain ⟨q, hq, hfound⟩ := getexactNode_spec hs hcmp hd
  rw [stdRbtreeGetnext, hvalid, exec_bind_ok, if_neg hd, hq, exec_bind_ok]
  rcases hfound with ⟨-, hno⟩ | ⟨hqn, c, v, l, r, rfl, heq⟩
  · exact absurd (hcmp.refl d) (hno (p, d) (by simp [hseq]))
  · -- the node found is the one at `d`
    have hsplit := seq_plug_node c q v l r
    have hqp : q = p := by
      have hmem : (q, v.data) ∈ xs ++ (p, d) :: ys := by simp [← hseq, hsplit]
      rw [Distinct, hseq, List.pairwise_map, List.pairwise_append, List.pairwise_cons] at hdist
      rw [List.mem_append, List.mem_cons] at hmem
      rcases hmem with hmem | hmem | hmem
      · exact absurd (hcmp.eq_comm.mp heq) (hdist.2.2 _ hmem (p, d) (by simp))
      · exact congrArg Prod.fst hmem
      · exact absurd heq (hdist.2.1.1 _ hmem)
    subst hqp
    obtain ⟨-, -, hys⟩ := hs.shape.split_unique hseq hsplit
    obtain ⟨y, hy, hnext⟩ := getnextNode_spec hs.shape hs.magic
    rw [if_pos hqn, hy, exec_bind_ok, hys]
    rcases hnext with ⟨hnil, rfl⟩ | ⟨w, rest, hcons⟩
    · rw [hnil, if_pos rfl]
      rfl
    · have hmem : (y, w) ∈ seq (plug c (.node q v l r)) := by simp [hsplit, hcons]
      rw [hcons, if_neg (hs.shape.ptr_of_mem hmem).2, hs.shape.data_of_mem hmem]
      rfl

/-- From any element on, the loop visits the rest of the sequence. -/
theorem iterateFrom_spec (hs : Sound rbtt t) (hcmp : TotalPreorder rbtt.rbttCompare)
    (hdist : Distinct rbtt.rbttCompare ((seq t).map Prod.snd)) (ys : List (Ptr × Ptr)) :
    ∀ xs, seq t = xs ++ ys →
      iterateFrom rbtt (ys.length + 1) (ys.head?.elim NULL Prod.snd) = .ok (ys.map Prod.snd) := by
  induction ys with
  | nil => exact fun _ _ => rfl
  | cons y ys ih =>
    intro xs hseq
    have hd : y.2 ≠ NULL := hs.stored y (by simp [hseq])
    have hrest := ih (xs ++ [y]) (by simp [hseq])
    rw [List.length_cons, iterateFrom, List.head?_cons, Option.elim_some, if_neg hd,
      stdRbtreeGetnext_spec hs hcmp hdist hseq, exec_bind_ok, hrest]
    rfl

/-- The loop covers the tree exactly when no two user nodes compare equal. -/
theorem covers_iff (hs : Sound rbtt t) (hcmp : TotalPreorder rbtt.rbttCompare) :
    Covers rbtt ((seq t).map Prod.snd) ↔ Distinct rbtt.rbttCompare ((seq t).map Prod.snd) := by
  have hfirst := stdRbtreeGetfirst_spec hs.shape hs.magic
  constructor
  · rintro ⟨fuel, vs, hrun, hperm, -⟩
    rw [iterate, hfirst, exec_bind_ok] at hrun
    have hvs := iterateFrom_pairwise hcmp hrun
    exact (hperm.pairwise_iff fun h => mt hcmp.eq_comm.mp h).mp hvs
  · intro hdist
    refine ⟨(seq t).length + 1, (seq t).map Prod.snd, ?_, List.Perm.refl _,
      List.pairwise_map.mpr hs.sorted⟩
    rw [iterate, hfirst, exec_bind_ok]
    exact iterateFrom_spec hs hcmp hdist (seq t) [] rfl

end Distinct

/-- After every run the loop covers the tree exactly when no two user nodes compare equal. -/
theorem rbtree_iteration (cmp : Ptr → Ptr → Int) (hcmp : TotalPreorder cmp) (ops : List TreeOp)
    (hops : NonNull ops) : ∃ rbtt s, runAll (stdRbtreeCreate cmp) ops = .ok rbtt ∧
      rbtt.inorder = .ok s ∧ (Covers rbtt (s.map Prod.snd) ↔ Distinct cmp (s.map Prod.snd)) := by
  obtain ⟨rbtt, t, hrun, hs, rfl⟩ := exists_sound hcmp _ hops
  exact ⟨rbtt, seq t, hrun, inorder_eq hs.shape, covers_iff hs hcmp⟩

/-- Three user nodes with different keys. -/
def distinctOps : List TreeOp := [.insert .above 30, .insert .above 10, .insert .above 20]

/-- The loop covers the tree of `distinctOps`. -/
theorem rbtree_iteration_sample : ∃ rbtt,
    runAll (stdRbtreeCreate compareKeys) distinctOps = .ok rbtt ∧ Covers rbtt [10, 20, 30] := by
  obtain ⟨rbtt, s, hrun, hs, hcovers⟩ := rbtree_iteration compareKeys totalPreorder_compareKeys
    distinctOps (by simp [NonNull, distinctOps, TreeOp.data])
  have hinorder : (do (← runAll (stdRbtreeCreate compareKeys) distinctOps).inorder) =
      .ok [(5, 10), (7, 20), (3, 30)] := by decide +kernel
  rw [hrun, exec_bind_ok, hs] at hinorder
  obtain rfl := Except.ok.inj hinorder
  exact ⟨rbtt, hrun, hcovers.mpr (by simp [Distinct, compareKeys])⟩

/-- Two user nodes with one key. -/
def equalOps : List TreeOp := [.insert .above 10, .insert .above 11]

/-- The loop does not cover a tree with two user nodes of one key. -/
theorem rbtree_iteration_repeats : ∃ rbtt,
    runAll (stdRbtreeCreate compareKeys) equalOps = .ok rbtt ∧
      rbtt.inorder = .ok [(3, 10), (5, 11)] ∧ ¬ Covers rbtt [10, 11] := by
  obtain ⟨rbtt, t, hrun, hs, hc⟩ := exists_sound totalPreorder_compareKeys equalOps
    (by simp [NonNull, equalOps, TreeOp.data])
  have hinorder : (do (← runAll (stdRbtreeCreate compareKeys) equalOps).inorder) =
      .ok [(3, 10), (5, 11)] := by decide +kernel
  rw [hrun, exec_bind_ok] at hinorder
  have hseq : seq t = [(3, 10), (5, 11)] :=
    Except.ok.inj ((inorder_eq hs.shape).symm.trans hinorder)
  have hcovers := covers_iff hs (hc ▸ totalPreorder_compareKeys)
  rw [hseq, hc] at hcovers
  refine ⟨rbtt, hrun, hinorder, fun h => ?_⟩
  exact absurd (hcovers.mp h) (by simp [Distinct, compareKeys])

end OpxCommonUtils.RbTree
