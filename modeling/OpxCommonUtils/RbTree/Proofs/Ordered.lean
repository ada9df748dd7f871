import OpxCommonUtils.RbTree.Proofs.Iteration

/-!
# Ordered searches

The searches for the next and for the previous user node descend towards the key. They end at a node
that compares equal, or below the last node of the descent, where the key would go: there the
sequence falls into the smaller and the greater elements (`Gap`), and the two at the gap are the
last node itself and the one a climb comes to.
-/

namespace OpxCommonUtils.RbTree

open Tree LinkTree RbtreeTable TreeOp

section
variable {rbtt : RbtreeTable} {cmp : Ptr → Ptr → Int} {data p : Ptr} {v : RbVal}
  {l r : Tree RbVal} {c : List (Frame RbVal)} {s xs ys : List (Ptr × Ptr)}

/-- The key is greater than the elements of `xs` and smaller than those of `ys`. -/
structure Gap (cmp : Ptr → Ptr → Int) (data : Ptr) (s xs ys : List (Ptr × Ptr)) : Prop where
  split : s = xs ++ ys
  smaller : ∀ x ∈ xs, cmp x.2 data < 0
  greater : ∀ y ∈ ys, cmp data y.2 < 0

/-- The key is greater than all before the hole and smaller than all behind it. -/
structure Between (cmp : Ptr → Ptr → Int) (data : Ptr) (c : List (Frame RbVal)) : Prop where
  smaller : ∀ x ∈ seqBefore c, cmp x.2 data < 0
  greater : ∀ y ∈ seqAfter c, cmp data y.2 < 0

theorem seqBefore_left (p : Ptr) (v : RbVal) (r : Tree RbVal) (c : List (Frame RbVal)) :
    seqBefore (⟨.left, p, v, r⟩ :: c) = seqBefore c := by
  simp [seqBefore, Ctx.inoBefore]

theorem seqAfter_left (p : Ptr) (v : RbVal) (r : Tree RbVal) (c : List (Frame RbVal)) :
    seqAfter (⟨.left, p, v, r⟩ :: c) = (p, v.data) :: (seq r ++ seqAfter c) := by
  simp [seqAfter, Ctx.inoAfter, seq]

theorem seqBefore_right (p : Ptr) (v : RbVal) (l : Tree RbVal) (c : List (Frame RbVal)) :
    seqBefore (⟨.right, p, v, l⟩ :: c) = seqBefore c ++ seq l ++ [(p, v.data)] := by
  simp [seqBefore, Ctx.inoBefore, seq]

namespace Between

/-- Where the tree has nothing the key has its gap. -/
theorem gap (h : Between cmp data c) : Gap cmp data (seq (plug c .nil)) (seqBefore c) (seqAfter c) :=
  ⟨by rw [seq_plug, seq_nil, List.append_nil], h.smaller, h.greater⟩

/-- The descent to the left of a greater node. -/
theorem left (h : Between cmp data c) (hcmp : TotalPreorder cmp)
    (hsorted : Sorted cmp (seq (plug c (.node p v l r)))) (hless : cmp data v.data < 0) :
    Between cmp data (⟨.left, p, v, r⟩ :: c) := by
  constructor
  · rw [seqBefore_left]
    exact h.smaller
  · rw [seq_plug_node, Sorted, List.pairwise_append, List.pairwise_cons] at hsorted
    intro y hy
    rw [seqAfter_left, List.mem_cons] at hy
    rcases hy with rfl | hy
    · exact hless
    · exact hcmp.lt_of_lt_of_le hless (hsorted.2.1.1 y hy)

/-- The descent to the right of a smaller node. -/
theorem right (h : Between cmp data c) (hcmp : TotalPreorder cmp)
    (hsorted : Sorted cmp (seq (plug c (.node p v l r)))) (hgreater : cmp v.data data < 0) :
    Between cmp data (⟨.right, p, v, l⟩ :: c) := by
  constructor
  · rw [seq_plug_node, Sorted, List.pairwise_append] at hsorted
    intro x hx
    rw [seqBefore_right, List.mem_append, List.mem_singleton] at hx
    rcases hx with hx | rfl
    · exact hcmp.lt_of_le_of_lt (hsorted.2.2 x hx (p, v.data) List.mem_cons_self) hgreater
    · exact hgreater
  · exact h.greater

end Between

/-! ## The climbs -/

theorem climbRight_head (h : Shape rbtt (plug c (.node p v l r))) :
    rbtt.climbRight rbtt.fuel p (Ctx.top NIL c) = .ok ((seqAfter c).head?.elim NIL Prod.fst) := by
  have hfuel := h.length_lt_fuel
  obtain ⟨q, hq, hres⟩ := climbRight_spec c rbtt.fuel _ h (by simp) (by omega)
  rw [root_node] at hq
  rw [hq]
  rcases hres with ⟨hnil, rfl⟩ | ⟨d, rest, hcons⟩
  · rw [hnil]
    rfl
  · rw [hcons]
    rfl

/-- The climb to the first ancestor that is right of the path. -/
theorem climbLeft_spec (c : List (Frame RbVal)) :
    ∀ (fuel : Nat) (t : Tree RbVal), Shape rbtt (plug c t) → t ≠ .nil → c.length < fuel →
      rbtt.climbLeft fuel (t.root NIL) (Ctx.top NIL c) =
        .ok ((seqBefore c).getLast?.elim NIL Prod.fst) := by
  induction c with
  | nil =>
    intro fuel t _ _ hlt
    obtain ⟨fuel, rfl⟩ := Nat.exists_eq_succ_of_ne_zero (by omega : fuel ≠ 0)
    rw [climbLeft, Ctx.top_nil, if_pos rfl]
    rfl
  | cons f c ih =>
    intro fuel t h hne hlt
    obtain ⟨fuel, rfl⟩ := Nat.exists_eq_succ_of_ne_zero (by omega : fuel ≠ 0)
    rw [List.length_cons] at hlt
    have hf : f.ptr ≠ NIL := h.ne_NIL (by simp [mem_ptrs_plug])
    obtain ⟨q, hq, htest⟩ := h.child_test (.inl hne) .left
    rw [climbLeft, Ctx.top_cons, if_neg hf, hq, exec_bind_ok]
    obtain ⟨side, y, w, sib⟩ := f
    cases side with
    | right =>
      rw [if_neg (fun heq => by simpa using htest.mp heq), seqBefore_right]
      simp
    | left =>
      have h' : Shape rbtt (plug c (join .left y w t sib)) := h
      have hclimb := ih fuel _ h' (join_ne_nil _ _ _ _ _) (by omega)
      rw [root_join] at hclimb
      rw [if_pos (htest.mpr rfl), h'.parent_eq, exec_bind_ok, seqBefore_left]
      exact hclimb

/-! ## The searches -/

/-- The search for the next: a node that compares equal, or the first one behind the gap. -/
theorem getexactornextLoop_spec (hcmp : TotalPreorder rbtt.rbttCompare) (data : Ptr)
    (t : Tree RbVal) : ∀ (fuel : Nat) (c : List (Frame RbVal)), Shape rbtt (plug c t) →
      Sorted rbtt.rbttCompare (seq (plug c t)) → Between rbtt.rbttCompare data c → t ≠ .nil →
      t.size < fuel →
      Delivers (rbtt.getexactornextLoop data fuel (t.root NIL)) fun q =>
        (∃ d, (q, d) ∈ seq (plug c t) ∧ rbtt.rbttCompare data d = 0) ∨
        ∃ xs ys, Gap rbtt.rbttCompare data (seq (plug c t)) xs ys ∧
          q = ys.head?.elim NIL Prod.fst := by
  induction t with
  | nil => intro _ _ _ _ _ hne; exact absurd rfl hne
  | node p v l r ihl ihr =>
    intro fuel c h hsorted hbetween _ hlt
    simp only [size] at hlt
    obtain ⟨fuel, rfl⟩ := Nat.exists_eq_succ_of_ne_zero (by omega : fuel ≠ 0)
    rw [getexactornextLoop, root_node, if_neg h.ptr_ne_NIL, h.data_node, exec_bind_ok]
    by_cases heq : rbtt.rbttCompare data v.data = 0
    · rw [if_pos heq]
      exact delivers_ok.mpr (.inl ⟨v.data, by simp [seq_plug_node], heq⟩)
    · rw [if_neg heq]
      by_cases hless : rbtt.rbttCompare data v.data < 0
      · have hbetween' := hbetween.left hcmp hsorted hless
        rw [if_pos hless, h.child_left, exec_bind_ok]
        by_cases hleft : l = .nil
        · subst hleft
          rw [root_nil, if_pos rfl]
          exact delivers_ok.mpr (.inr ⟨_, _, hbetween'.gap, by rw [seqAfter_left]; rfl⟩)
        · have hnil := (show Shape rbtt (plug (⟨.left, p, v, r⟩ :: c) l) from h).holds.root_eq_nul
          rw [nul_rbtreeNode] at hnil
          rw [if_neg (hnil.not.mpr hleft)]
          exact ihl fuel (⟨.left, p, v, r⟩ :: c) h hsorted hbetween' hleft (by omega)
      · have hgreater : rbtt.rbttCompare v.data data < 0 := by
          have hs := hcmp.swap v.data data
          omega
        have hbetween' := hbetween.right hcmp hsorted hgreater
        rw [if_neg hless, h.child_right, exec_bind_ok]
        by_cases hright : r = .nil
        · subst hright
          rw [root_nil, if_pos rfl, h.parent_node, exec_bind_ok, climbRight_head h]
          exact delivers_ok.mpr (.inr ⟨_, _, hbetween'.gap, rfl⟩)
        · have hnil := (show Shape rbtt (plug (⟨.right, p, v, l⟩ :: c) r) from h).holds.root_eq_nul
          rw [nul_rbtreeNode] at hnil
          rw [if_neg (hnil.not.mpr hright)]
          exact ihr fuel (⟨.right, p, v, l⟩ :: c) h hsorted hbetween' hright (by omega)

/-- The search for the previous: a node that compares equal, or the last one before the gap. -/
theorem getexactorprevLoop_spec (hcmp : TotalPreorder rbtt.rbttCompare) (data : Ptr)
    (t : Tree RbVal) : ∀ (fuel : Nat) (c : List (Frame RbVal)), Shape rbtt (plug c t) →
      Sorted rbtt.rbttCompare (seq (plug c t)) → Between rbtt.rbttCompare data c → t ≠ .nil →
      t.size < fuel →
      Delivers (rbtt.getexactorprevLoop data fuel (t.root NIL)) fun q =>
        (∃ d, (q, d) ∈ seq (plug c t) ∧ rbtt.rbttCompare data d = 0) ∨
        ∃ xs ys, Gap rbtt.rbttCompare data (seq (plug c t)) xs ys ∧
          q = xs.getLast?.elim NIL Prod.fst := by
  induction t with
  | nil => intro _ _ _ _ _ hne; exact absurd rfl hne
  | node p v l r ihl ihr =>
    intro fuel c h hsorted hbetween _ hlt
    simp only [size] at hlt
    obtain ⟨fuel, rfl⟩ := Nat.exists_eq_succ_of_ne_zero (by omega : fuel ≠ 0)
    rw [getexactorprevLoop, root_node, if_neg h.ptr_ne_NIL, h.data_node, exec_bind_ok]
    by_cases heq : rbtt.rbttCompare data v.data = 0
    · rw [if_pos heq]
      exact delivers_ok.mpr (.inl ⟨v.data, by simp [seq_plug_node], heq⟩)
    · rw [if_neg heq]
      by_cases hless : rbtt.rbttCompare data v.data < 0
      · have hbetween' := hbetween.left hcmp hsorted hless
        rw [if_pos hless, h.child_left, exec_bind_ok]
        by_cases hleft : l = .nil
        · subst hleft
          have hfuel := h.length_lt_fuel
          have hclimb := climbLeft_spec c rbtt.fuel _ h (by simp) (by omega)
          rw [root_node] at hclimb
          rw [root_nil, if_pos rfl, h.parent_node, exec_bind_ok, hclimb]
          exact delivers_ok.mpr (.inr ⟨_, _, hbetween'.gap, by rw [seqBefore_left]⟩)
        · have hnil := (show Shape rbtt (plug (⟨.left, p, v, r⟩ :: c) l) from h).holds.root_eq_nul
          rw [nul_rbtreeNode] at hnil
          rw [if_neg (hnil.not.mpr hleft)]
          exact ihl fuel (⟨.left, p, v, r⟩ :: c) h hsorted hbetween' hleft (by omega)
      · have hgreater : rbtt.rbttCompare v.data data < 0 := by
          have hs := hcmp.swap v.data data
          omega
        have hbetween' := hbetween.right hcmp hsorted hgreater
        rw [if_neg hless, h.child_right, exec_bind_ok]
        by_cases hright : r = .nil
        · subst hright
          rw [root_nil, if_pos rfl]
          refine delivers_ok.mpr (.inr ⟨_, _, hbetween'.gap, ?_⟩)
          rw [seqBefore_right]
          simp
        · have hnil := (show Shape rbtt (plug (⟨.right, p, v, l⟩ :: c) r) from h).holds.root_eq_nul
          rw [nul_rbtreeNode] at hnil
          rw [if_neg (hnil.not.mpr hright)]
          exact ihr fuel (⟨.right, p, v, l⟩ :: c) h hsorted hbetween' hright (by omega)

end

/-! ## The answers -/

/-- `r` compares equal to the key, or there is no such element and `r` is `NULL`. -/
structure EqualTo (cmp : Ptr → Ptr → Int) (data : Ptr) (ds : List Ptr) (r : Ptr) : Prop where
  null : r = NULL ↔ ∀ e ∈ ds, cmp data e ≠ 0
  found : r ≠ NULL → r ∈ ds ∧ cmp data r = 0

/-- `r` is least among the elements from the key on, or there is none and `r` is `NULL`. -/
structure LeastFrom (cmp : Ptr → Ptr → Int) (data : Ptr) (ds : List Ptr) (r : Ptr) : Prop where
  null : r = NULL ↔ ∀ e ∈ ds, ¬ cmp data e ≤ 0
  found : r ≠ NULL → r ∈ ds ∧ cmp data r ≤ 0 ∧ ∀ e ∈ ds, cmp data e ≤ 0 → cmp r e ≤ 0

/-- `r` is greatest among the elements up to the key, or there is none and `r` is `NULL`. -/
structure GreatestTo (cmp : Ptr → Ptr → Int) (data : Ptr) (ds : List Ptr) (r : Ptr) : Prop where
  null : r = NULL ↔ ∀ e ∈ ds, ¬ 0 ≤ cmp data e
  found : r ≠ NULL → r ∈ ds ∧ 0 ≤ cmp data r ∧ ∀ e ∈ ds, 0 ≤ cmp data e → cmp e r ≤ 0

/-- `r` is least of all elements, or there is none and `r` is `NULL`. -/
structure LeastOf (cmp : Ptr → Ptr → Int) (ds : List Ptr) (r : Ptr) : Prop where
  null : r = NULL ↔ ds = []
  found : r ≠ NULL → r ∈ ds ∧ ∀ e ∈ ds, cmp r e ≤ 0

section
variable {cmp : Ptr → Ptr → Int} {data : Ptr} {s xs ys : List (Ptr × Ptr)}

/-- An element that compares equal is a next and a previous one. -/
theorem leastFrom_of_eq (hcmp : TotalPreorder cmp) {ds : List Ptr} {d : Ptr} (hmem : d ∈ ds)
    (hd : d ≠ NULL) (heq : cmp data d = 0) : LeastFrom cmp data ds d := by
  constructor
  · exact iff_of_false hd fun hno => hno d hmem heq.le
  · intro _
    exact ⟨hmem, heq.le, fun e _ hle => hcmp.trans d data e (hcmp.eq_comm.mp heq).le hle⟩

theorem greatestTo_of_eq (hcmp : TotalPreorder cmp) {ds : List Ptr} {d : Ptr} (hmem : d ∈ ds)
    (hd : d ≠ NULL) (heq : cmp data d = 0) : GreatestTo cmp data ds d := by
  constructor
  · exact iff_of_false hd fun hno => hno d hmem heq.ge
  · intro _
    refine ⟨hmem, heq.ge, fun e _ hle => ?_⟩
    have hs := hcmp.swap data e
    exact hcmp.trans e data d (by have := hcmp.swap e data; omega) heq.le

/-- The first element behind the gap is the next. -/
theorem Gap.leastFrom (h : Gap cmp data s xs ys) (hcmp : TotalPreorder cmp)
    (hsorted : Sorted cmp s) (hstored : ∀ x ∈ s, x.2 ≠ NULL) :
    LeastFrom cmp data (s.map Prod.snd) (ys.head?.elim NULL Prod.snd) := by
  obtain ⟨rfl, hsmaller, hgreater⟩ := h
  have hno : ∀ x ∈ xs, ¬ cmp data x.2 ≤ 0 := by
    intro x hx
    have hlt := (hcmp.swap _ _).mp (hsmaller x hx)
    omega
  cases ys with
  | nil =>
    constructor
    · refine iff_of_true rfl ?_
      simpa using fun d p hx => hno (p, d) hx
    · exact fun hne => absurd rfl hne
  | cons y ys =>
    have hy : y.2 ≠ NULL := hstored y (by simp)
    have hless := hgreater y List.mem_cons_self
    rw [Sorted, List.pairwise_append, List.pairwise_cons] at hsorted
    constructor
    · exact iff_of_false hy fun hnone => hnone y.2 (by simp) hless.le
    · intro _
      refine ⟨by simp, hless.le, ?_⟩
      intro e he hle
      obtain ⟨x, hx, rfl⟩ := List.mem_map.mp he
      rw [List.mem_append, List.mem_cons] at hx
      rcases hx with hx | rfl | hx
      · exact absurd hle (hno x hx)
      · exact (hcmp.refl x.2).le
      · exact hsorted.2.1.1 x hx

/-- The last element before the gap is the previous. -/
theorem Gap.greatestTo (h : Gap cmp data s xs ys) (hcmp : TotalPreorder cmp)
    (hsorted : Sorted cmp s) (hstored : ∀ x ∈ s, x.2 ≠ NULL) :
    GreatestTo cmp data (s.map Prod.snd) (xs.getLast?.elim NULL Prod.snd) := by
  obtain ⟨rfl, hsmaller, hgreater⟩ := h
  have hno : ∀ y ∈ ys, ¬ 0 ≤ cmp data y.2 := by
    intro y hy
    have hlt := hgreater y hy
    omega
  rcases List.eq_nil_or_concat xs with rfl | ⟨xs, x, rfl⟩
  · constructor
    · refine iff_of_true rfl ?_
      simpa using fun d p hx => hno (p, d) hx
    · exact fun hne => absurd rfl hne
  · have hx : x.2 ≠ NULL := hstored x (by simp)
    have hpos := (hcmp.swap _ _).mp (hsmaller x (by simp))
    rw [List.concat_eq_append, List.getLast?_concat, Option.elim_some]
    rw [List.concat_eq_append, Sorted, List.pairwise_append, List.pairwise_append] at hsorted
    constructor
    · exact iff_of_false hx fun hnone => hnone x.2 (by simp) hpos.le
    · intro _
      refine ⟨by simp, hpos.le, ?_⟩
      intro e he hle
      obtain ⟨z, hz, rfl⟩ := List.mem_map.mp he
      rw [List.mem_append, List.mem_append, List.mem_singleton] at hz
      rcases hz with (hz | rfl) | hz
      · exact hsorted.1.2.2 z hz x (by simp)
      · exact (hcmp.refl z.2).le
      · exact absurd hle (hno z hz)

end

/-! ## The routines -/

section
variable {rbtt : RbtreeTable} {t : Tree RbVal} {data : Ptr}

/-- The user node of a node of the sequence, or of none. -/
theorem Sound.data_elim (hs : Sound rbtt t) {x : Option (Ptr × Ptr)} (hx : ∀ y ∈ x, y ∈ seq t) :
    (if x.elim NULL Prod.fst = NULL then (pure NULL : Exec Ptr)
      else rbtt.data (x.elim NULL Prod.fst)) = .ok (x.elim NULL Prod.snd) := by
  cases x with
  | none => rfl
  | some y =>
    have hmem : (y.1, y.2) ∈ seq t := hx y rfl
    rw [Option.elim_some, if_neg (hs.shape.ptr_of_mem hmem).2]
    exact hs.shape.data_of_mem hmem

/-- The search ends at a node of the sequence, or at `NIL`. -/
theorem Sound.orNull_elim (hs : Sound rbtt t) {x : Option (Ptr × Ptr)} (hx : ∀ y ∈ x, y ∈ seq t) :
    orNull (x.elim NIL Prod.fst) = x.elim NULL Prod.fst := by
  cases x with
  | none => rfl
  | some y => exact if_neg (hs.shape.ptr_of_mem (hx y rfl)).1

theorem Between.root (cmp : Ptr → Ptr → Int) (data : Ptr) : Between cmp data [] :=
  ⟨by simp [seqBefore, Ctx.inoBefore], by simp [seqAfter, Ctx.inoAfter]⟩

theorem getexactornextNode_spec (hs : Sound rbtt t) (hcmp : TotalPreorder rbtt.rbttCompare)
    (hd : data ≠ NULL) : Delivers (rbtt.getexactornextNode data) fun q =>
      (∃ d, (q, d) ∈ seq t ∧ rbtt.rbttCompare data d = 0) ∨
      ∃ xs ys, Gap rbtt.rbttCompare data (seq t) xs ys ∧ q = ys.head?.elim NULL Prod.fst := by
  rw [getexactornextNode, debugBlock_ok hs.magic hd, exec_bind_ok, hs.shape.holds.root_eq,
    nul_rbtreeNode]
  by_cases ht : t = .nil
  · subst ht
    exact delivers_ok.mpr (.inr ⟨[], [], (Between.root _ data).gap, rfl⟩)
  · refine Delivers.bind (getexactornextLoop_spec hcmp data t rbtt.fuel [] hs.shape hs.sorted
      (.root _ data) ht hs.shape.size_lt_fuel) ?_
    rintro q (⟨d, hmem, heq⟩ | ⟨xs, ys, hgap, rfl⟩)
    · rw [orNull, if_neg (hs.shape.ptr_of_mem hmem).1]
      exact delivers_ok.mpr (.inl ⟨d, hmem, heq⟩)
    · refine delivers_ok.mpr (.inr ⟨xs, ys, hgap, hs.orNull_elim ?_⟩)
      intro y hy
      rw [show seq t = xs ++ ys from hgap.split]
      exact List.mem_append_right _ (List.mem_of_mem_head? hy)

theorem getexactorprevNode_spec (hs : Sound rbtt t) (hcmp : TotalPreorder rbtt.rbttCompare)
    (hd : data ≠ NULL) : Delivers (rbtt.getexactorprevNode data) fun q =>
      (∃ d, (q, d) ∈ seq t ∧ rbtt.rbttCompare data d = 0) ∨
      ∃ xs ys, Gap rbtt.rbttCompare data (seq t) xs ys ∧ q = xs.getLast?.elim NULL Prod.fst := by
  rw [getexactorprevNode, debugBlock_ok hs.magic hd, exec_bind_ok, hs.shape.holds.root_eq,
    nul_rbtreeNode]
  by_cases ht : t = .nil
  · subst ht
    exact delivers_ok.mpr (.inr ⟨[], [], (Between.root _ data).gap, rfl⟩)
  · refine Delivers.bind (getexactorprevLoop_spec hcmp data t rbtt.fuel [] hs.shape hs.sorted
      (.root _ data) ht hs.shape.size_lt_fuel) ?_
    rintro q (⟨d, hmem, heq⟩ | ⟨xs, ys, hgap, rfl⟩)
    · rw [orNull, if_neg (hs.shape.ptr_of_mem hmem).1]
      exact delivers_ok.mpr (.inl ⟨d, hmem, heq⟩)
    · refine delivers_ok.mpr (.inr ⟨xs, ys, hgap, hs.orNull_elim ?_⟩)
      intro x hx
      rw [show seq t = xs ++ ys from hgap.split]
      exact List.mem_append_left _ (List.mem_of_getLast? hx)

theorem stdRbtreeGetexact_spec (hs : Sound rbtt t) (hcmp : TotalPreorder rbtt.rbttCompare)
    (hd : data ≠ NULL) : Delivers (rbtt.stdRbtreeGetexact data)
      (EqualTo rbtt.rbttCompare data ((seq t).map Prod.snd)) := by
  rw [stdRbtreeGetexact, debugBlock_ok hs.magic hd, exec_bind_ok]
  refine Delivers.bind (getexactNode_spec hs hcmp hd) ?_
  rintro q (⟨rfl, hno⟩ | ⟨hq, c, v, l, r, rfl, heq⟩)
  · rw [if_pos rfl]
    refine delivers_ok.mpr ⟨iff_of_true rfl ?_, fun hne => absurd rfl hne⟩
    simpa using fun d p hx => hno (p, d) hx
  · have hmem : (q, v.data) ∈ seq (plug c (.node q v l r)) := by simp [seq_plug_node]
    have hv : v.data ≠ NULL := hs.stored _ hmem
    have hin : v.data ∈ (seq (plug c (.node q v l r))).map Prod.snd := List.mem_map_of_mem hmem
    rw [if_neg hq, hs.shape.data_of_mem hmem]
    exact delivers_ok.mpr ⟨iff_of_false hv fun hno => hno _ hin heq, fun _ => ⟨hin, heq⟩⟩

theorem stdRbtreeGetexactornext_spec (hs : Sound rbtt t) (hcmp : TotalPreorder rbtt.rbttCompare)
    (hd : data ≠ NULL) : Delivers (rbtt.stdRbtreeGetexactornext data)
      (LeastFrom rbtt.rbttCompare data ((seq t).map Prod.snd)) := by
  rw [stdRbtreeGetexactornext, debugBlock_ok hs.magic hd, exec_bind_ok]
  refine Delivers.bind (getexactornextNode_spec hs hcmp hd) ?_
  rintro q (⟨d, hmem, heq⟩ | ⟨xs, ys, hgap, rfl⟩)
  · rw [if_neg (hs.shape.ptr_of_mem hmem).2, hs.shape.data_of_mem hmem]
    exact delivers_ok.mpr
      (leastFrom_of_eq hcmp (List.mem_map_of_mem hmem) (hs.stored _ hmem) heq)
  · rw [hs.data_elim fun y hy => hgap.split ▸ List.mem_append_right _ (List.mem_of_mem_head? hy)]
    exact delivers_ok.mpr (hgap.leastFrom hcmp hs.sorted hs.stored)

theorem stdRbtreeGetexactorprev_spec (hs : Sound rbtt t) (hcmp : TotalPreorder rbtt.rbttCompare)
    (hd : data ≠ NULL) : Delivers (rbtt.stdRbtreeGetexactorprev data)
      (GreatestTo rbtt.rbttCompare data ((seq t).map Prod.snd)) := by
  rw [stdRbtreeGetexactorprev, debugBlock_ok hs.magic hd, exec_bind_ok]
  refine Delivers.bind (getexactorprevNode_spec hs hcmp hd) ?_
  rintro q (⟨d, hmem, heq⟩ | ⟨xs, ys, hgap, rfl⟩)
  · rw [if_neg (hs.shape.ptr_of_mem hmem).2, hs.shape.data_of_mem hmem]
    exact delivers_ok.mpr
      (greatestTo_of_eq hcmp (List.mem_map_of_mem hmem) (hs.stored _ hmem) heq)
  · rw [hs.data_elim fun x hx => hgap.split ▸ List.mem_append_left _ (List.mem_of_getLast? hx)]
    exact delivers_ok.mpr (hgap.greatestTo hcmp hs.sorted hs.stored)

theorem stdRbtreeGetfirst_least (hs : Sound rbtt t) (hcmp : TotalPreorder rbtt.rbttCompare) :
    Delivers rbtt.stdRbtreeGetfirst (LeastOf rbtt.rbttCompare ((seq t).map Prod.snd)) := by
  rw [stdRbtreeGetfirst_spec hs.shape hs.magic]
  have hsorted := hs.sorted
  have hstored := hs.stored
  generalize seq t = s at hsorted hstored
  cases s with
  | nil => exact delivers_ok.mpr ⟨by simp, fun hne => absurd rfl hne⟩
  | cons x s =>
    have hx : x.2 ≠ NULL := hstored x List.mem_cons_self
    rw [Sorted, List.pairwise_cons] at hsorted
    refine delivers_ok.mpr ⟨by simpa using hx, fun _ => ⟨by simp, ?_⟩⟩
    intro e he
    obtain ⟨y, hy, rfl⟩ := List.mem_map.mp he
    rcases List.mem_cons.mp hy with rfl | hy
    · exact (hcmp.refl y.2).le
    · exact hsorted.1 y hy

end

/-- After every run the searches answer as the sequence of user nodes says. -/
theorem rbtree_searches (cmp : Ptr → Ptr → Int) (hcmp : TotalPreorder cmp) (ops : List TreeOp)
    (hops : NonNull ops) : ∃ rbtt s, runAll (stdRbtreeCreate cmp) ops = .ok rbtt ∧
      rbtt.inorder = .ok s ∧
      (∀ data : Ptr, data ≠ NULL →
        Delivers (rbtt.stdRbtreeGetexact data) (EqualTo cmp data (s.map Prod.snd)) ∧
        Delivers (rbtt.stdRbtreeGetexactornext data) (LeastFrom cmp data (s.map Prod.snd)) ∧
        Delivers (rbtt.stdRbtreeGetexactorprev data) (GreatestTo cmp data (s.map Prod.snd))) ∧
      Delivers rbtt.stdRbtreeGetfirst (LeastOf cmp (s.map Prod.snd)) := by
  obtain ⟨rbtt, t, hrun, hs, rfl⟩ := exists_sound hcmp _ hops
  refine ⟨rbtt, seq t, hrun, inorder_eq hs.shape, ?_, stdRbtreeGetfirst_least hs hcmp⟩
  intro data hd
  exact ⟨stdRbtreeGetexact_spec hs hcmp hd, stdRbtreeGetexactornext_spec hs hcmp hd,
    stdRbtreeGetexactorprev_spec hs hcmp hd⟩

/-- In the table of `sampleOps` the next user node from 205 on is one with that key, and the
previous one from 150 on is 100. -/
theorem rbtree_searches_sample : ∃ rbtt,
    runAll (stdRbtreeCreate compareKeys) sampleOps = .ok rbtt ∧
      rbtt.stdRbtreeGetexactorprev 150 = .ok 100 ∧
      Delivers (rbtt.stdRbtreeGetexactornext 205)
        (LeastFrom compareKeys 205 [100, 200, 201, 500, 600]) := by
  obtain ⟨rbtt, s, hrun, hs, hsearch, -⟩ :=
    rbtree_searches compareKeys totalPreorder_compareKeys sampleOps sampleOps_nonNull
  have hinorder : (do (← runAll (stdRbtreeCreate compareKeys) sampleOps).inorder) =
      .ok [(5, 100), (3, 200), (9, 201), (11, 500), (13, 600)] := by decide +kernel
  rw [hrun, exec_bind_ok, hs] at hinorder
  obtain rfl := Except.ok.inj hinorder
  obtain ⟨-, hnext, -⟩ := hsearch 205 (by decide)
  obtain ⟨-, -, r, hr, hprev⟩ := hsearch 150 (by decide)
  refine ⟨rbtt, hrun, ?_, hnext⟩
  have hne : r ≠ NULL := by
    rw [Ne, hprev.null]
    intro hno
    exact hno 100 (by simp) (by decide)
  obtain ⟨hmem, hle, -⟩ := hprev.found hne
  have hall : ∀ e ∈ [100, 200, 201, 500, 600], 0 ≤ compareKeys 150 e → e = 100 := by decide
  rw [hr, hall r hmem hle]

end OpxCommonUtils.RbTree
