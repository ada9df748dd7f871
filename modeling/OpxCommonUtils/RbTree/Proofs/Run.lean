import OpxCommonUtils.RbTree.Proofs.Insert
import OpxCommonUtils.RbTree.Proofs.Remove

/-!
# Runs of insertions and removals

`TreeOp` is a call of `std_rbtree_insert` or `std_rbtree_remove`; the user node is not null,
which the routines assert. Every call keeps `Sound`, whatever total preorder the table compares
with. From that follow the red-black invariant in terms of paths (`rbtree_invariant`) and the
refinement of a stable sorted sequence (`rbtree_refines_sequence`).
-/

namespace OpxCommonUtils.RbTree

open Tree LinkTree RedBlack RbtreeTable

/-- A call that changes the tree. -/
inductive TreeOp where
  | insert (A : Malloc RbtreeNode) (data : Ptr)
  | remove (data : Ptr)

namespace TreeOp

/-- The user node of the call. -/
def data : TreeOp → Ptr
  | .insert _ data => data
  | .remove data => data

/-- The table after the call. -/
def run (rbtt : RbtreeTable) : TreeOp → Exec RbtreeTable
  | .insert A data => return (← rbtt.stdRbtreeInsert A data).2
  | .remove data => return (← rbtt.stdRbtreeRemove data).2

/-- The table after a sequence of calls. -/
def runAll : RbtreeTable → List TreeOp → Exec RbtreeTable
  | rbtt, [] => .ok rbtt
  | rbtt, op :: ops => do
    let rbtt ← run rbtt op
    runAll rbtt ops

/-- The user nodes are there. -/
def NonNull (ops : List TreeOp) : Prop := ∀ op ∈ ops, op.data ≠ NULL

end TreeOp

open TreeOp

theorem Sound.create {cmp : Ptr → Ptr → Int} : Sound (stdRbtreeCreate cmp) .nil :=
  ⟨rfl, ⟨⟨rfl, trivial, List.nodup_nil⟩, ⟨NIL, Heap.get_set_self ..⟩, by simp⟩, rfl, ⟨0, rfl⟩,
    List.Pairwise.nil, rfl, by simp⟩

/-- Every call keeps a sound table. -/
theorem run_spec {rbtt : RbtreeTable} {t : Tree RbVal} (hs : Sound rbtt t)
    (hcmp : TotalPreorder rbtt.rbttCompare) {op : TreeOp} (hop : op.data ≠ NULL) :
    Delivers (run rbtt op) fun rbtt' => ∃ t', Sound rbtt' t' ∧
      rbtt'.rbttCompare = rbtt.rbttCompare := by
  cases op with
  | insert A data =>
    refine Delivers.bind (stdRbtreeInsert_spec hs hcmp A hop) fun r hr => delivers_ok.mpr ?_
    rcases hr with ⟨-, rfl⟩ | ⟨z, t', xs, ys, -, -, hs', -, -, -, -, hcompare⟩
    · exact ⟨t, hs, rfl⟩
    · exact ⟨t', hs', hcompare⟩
  | remove data =>
    refine Delivers.bind (stdRbtreeRemove_spec hs hcmp hop) fun r hr => delivers_ok.mpr ?_
    rcases hr with ⟨rfl, -⟩ | ⟨z, t', xs, ys, -, hs', -, -, -, hcompare⟩
    · exact ⟨t, hs, rfl⟩
    · exact ⟨t', hs', hcompare⟩

theorem runAll_spec {ops : List TreeOp} (hops : NonNull ops) :
    ∀ {rbtt : RbtreeTable} {t : Tree RbVal}, Sound rbtt t → TotalPreorder rbtt.rbttCompare →
      Delivers (runAll rbtt ops) fun rbtt' => ∃ t', Sound rbtt' t' ∧
        rbtt'.rbttCompare = rbtt.rbttCompare := by
  induction ops with
  | nil => exact fun hs _ => delivers_ok.mpr ⟨_, hs, rfl⟩
  | cons op ops ih =>
    intro rbtt t hs hcmp
    refine Delivers.bind (run_spec hs hcmp (hops op (by simp))) fun rbtt₁ ⟨t₁, hs₁, hc₁⟩ => ?_
    refine (ih (fun o ho => hops o (by simp [ho])) hs₁ (hc₁ ▸ hcmp)).mono fun rbtt₂ hr => ?_
    obtain ⟨t₂, hs₂, hc₂⟩ := hr
    exact ⟨t₂, hs₂, hc₂.trans hc₁⟩

/-- Every run from a new table succeeds and leaves a sound table. -/
theorem exists_sound {cmp : Ptr → Ptr → Int} (hcmp : TotalPreorder cmp) (ops : List TreeOp)
    (hops : NonNull ops) : ∃ rbtt t, runAll (stdRbtreeCreate cmp) ops = .ok rbtt ∧
      Sound rbtt t ∧ rbtt.rbttCompare = cmp := by
  obtain ⟨rbtt, hrun, t, hs, hc⟩ := runAll_spec hops (Sound.create) hcmp
  exact ⟨rbtt, t, hrun, hs, hc⟩

/-- The invariant of a red-black tree, on the links, the paths and the order of its nodes. -/
structure Invariant (rbtt : RbtreeTable) (t : Tree RbVal) : Prop where
  links : Holds rbtt.nodes rbtt.rbttRoot t
  sentinel : ∃ par d, rbtt.nodes.get NIL = some ⟨NIL, NIL, par, .black, d⟩
  root : rbtt.color rbtt.rbttRoot = .ok .black
  noRedRed : ∀ vs ∈ paths t, NoRedRed vs
  blacks : ∃ n, ∀ vs ∈ paths t, RedBlack.blacks vs = n
  sorted : Sorted rbtt.rbttCompare (seq t)
  numinodes : rbtt.rbttNuminodes = t.size
  short : ∀ vs ∈ paths t, (vs.length : ℝ) ≤ 2 * Real.logb 2 (rbtt.rbttNuminodes + 1)

theorem Sound.invariant {rbtt : RbtreeTable} {t : Tree RbVal} (hs : Sound rbtt t) :
    Invariant rbtt t := by
  obtain ⟨n, hn⟩ := hs.balanced
  obtain ⟨par, hnil⟩ := hs.shape.nil
  refine ⟨hs.shape.holds, ⟨par, NULL, hnil⟩, ?_, fun vs hvs => (hn.paths hvs).2,
    ⟨n, fun vs hvs => (hn.paths hvs).1⟩, hs.sorted, hs.counted, fun vs hvs => ?_⟩
  · rw [hs.shape.holds.root_eq, nul_rbtreeNode, Shape.color_eq (c := []) hs.shape, hs.black]
  · rw [hs.counted]
    exact hn.length_le hs.black hvs

/-- Every run keeps the invariant. -/
theorem rbtree_invariant (cmp : Ptr → Ptr → Int) (hcmp : TotalPreorder cmp) (ops : List TreeOp)
    (hops : NonNull ops) : ∃ rbtt t, runAll (stdRbtreeCreate cmp) ops = .ok rbtt ∧
      rbtt.rbttCompare = cmp ∧ Invariant rbtt t := by
  obtain ⟨rbtt, t, hrun, hs, hc⟩ := exists_sound hcmp _ hops
  exact ⟨rbtt, t, hrun, hc, hs.invariant⟩

/-- User nodes compare equal when they differ in the last digit only. -/
def compareKeys (a b : Ptr) : Int := (a / 10 : Nat) - (b / 10 : Nat)

theorem totalPreorder_compareKeys : TotalPreorder compareKeys := by
  refine ⟨fun a b => ?_, fun a b c => ?_⟩ <;> simp only [compareKeys] <;> omega

/-- Seven insertions, two of them of one key and one without memory, and a removal. -/
def sampleOps : List TreeOp := [
  .insert .above 200, .insert .above 100, .insert .above 300, .insert .above 201,
  .insert (.ofList []) 400, .insert .above 500, .insert .above 600, .remove 300]

theorem sampleOps_nonNull : NonNull sampleOps := by
  simp [NonNull, sampleOps, TreeOp.data]

example : (do (← runAll (stdRbtreeCreate compareKeys) sampleOps).inorder) =
    .ok [(5, 100), (3, 200), (9, 201), (11, 500), (13, 600)] := by decide +kernel

theorem rbtree_invariant_sample : ∃ rbtt t,
    runAll (stdRbtreeCreate compareKeys) sampleOps = .ok rbtt ∧ Invariant rbtt t := by
  obtain ⟨rbtt, t, hrun, -, hinv⟩ :=
    rbtree_invariant compareKeys totalPreorder_compareKeys sampleOps sampleOps_nonNull
  exact ⟨rbtt, t, hrun, hinv⟩

/-- No node that is in both sequences changed its user node. -/
def KeepsData (s s' : List (Ptr × Ptr)) : Prop := ∀ p d d', (p, d) ∈ s → (p, d') ∈ s' → d' = d

/-- What an insertion does to the sequence. -/
def Inserted (cmp : Ptr → Ptr → Int) (data : Ptr) (s s' : List (Ptr × Ptr)) : Prop :=
  ∃ z xs ys, s = xs ++ ys ∧ s' = xs ++ (z, data) :: ys ∧
    (∀ x ∈ xs, cmp x.2 data ≤ 0) ∧ ∀ y ∈ ys, 0 < cmp y.2 data

/-- What a removal that answers `ret` does to the sequence. -/
def Removed (cmp : Ptr → Ptr → Int) (data ret : Ptr) (s s' : List (Ptr × Ptr)) : Prop :=
  ∃ z xs ys, s = xs ++ (z, ret) :: ys ∧ s' = xs ++ ys ∧ cmp data ret = 0

/-- Two tables one of whose sequences is part of the other's agree on the user nodes. -/
theorem keepsData_of_sublist {rbtt : RbtreeTable} {t : Tree RbVal} (h : Shape rbtt t)
    {s s' : List (Ptr × Ptr)} (hs : ∀ x ∈ s, x ∈ seq t) (hs' : ∀ x ∈ s', x ∈ seq t) :
    KeepsData s s' := by
  intro p d d' hd hd'
  have heq := h.data_of_mem (hs _ hd)
  rw [h.data_of_mem (hs' _ hd')] at heq
  exact Except.ok.inj heq

/-- After every run the next call does to the in-order sequence what it should. -/
theorem rbtree_refines_sequence (cmp : Ptr → Ptr → Int) (hcmp : TotalPreorder cmp)
    (ops : List TreeOp) (hops : NonNull ops) :
    ∃ rbtt s, runAll (stdRbtreeCreate cmp) ops = .ok rbtt ∧ rbtt.inorder = .ok s ∧
      (∀ (A : Malloc RbtreeNode) (data : Ptr), data ≠ NULL →
        ∃ ok rbtt' s', rbtt.stdRbtreeInsert A data = .ok (ok, rbtt') ∧ rbtt'.inorder = .ok s' ∧
          (ok = false ↔ A.next rbtt.nodes = none) ∧ (ok = false → s' = s) ∧
          (ok = true → Inserted cmp data s s') ∧ KeepsData s s') ∧
      ∀ data : Ptr, data ≠ NULL →
        ∃ ret rbtt' s', rbtt.stdRbtreeRemove data = .ok (ret, rbtt') ∧ rbtt'.inorder = .ok s' ∧
          (ret = NULL ↔ ∀ x ∈ s, cmp data x.2 ≠ 0) ∧ (ret = NULL → rbtt' = rbtt) ∧
          (ret ≠ NULL → Removed cmp data ret s s') ∧ KeepsData s s' := by
  obtain ⟨rbtt, t, hrun, hs, rfl⟩ := exists_sound hcmp _ hops
  refine ⟨rbtt, seq t, hrun, inorder_eq hs.shape, fun A data hd => ?_, fun data hd => ?_⟩
  · obtain ⟨⟨ok, rbtt'⟩, hins, hr⟩ := stdRbtreeInsert_spec hs hcmp A hd
    rcases hr with ⟨hnext, heq⟩ | ⟨z, t', xs, ys, hnext, hok, hs', hseq, hseq', hxs, hys, -⟩
    · obtain ⟨rfl, rfl⟩ := Prod.mk.inj heq
      exact ⟨false, rbtt', seq t, hins, inorder_eq hs.shape, by simp [hnext], fun _ => rfl, by simp,
        keepsData_of_sublist hs.shape (fun _ => id) fun _ => id⟩
    · obtain rfl : ok = true := hok
      refine ⟨true, rbtt', seq t', hins, inorder_eq hs'.shape, by simp [hnext], by simp, fun _ =>
        ⟨z, xs, ys, hseq, hseq', hxs, fun y hy => (hcmp.swap _ _).mp (hys y hy)⟩,
        keepsData_of_sublist hs'.shape (fun x hx => ?_) fun _ => id⟩
      rw [hseq, List.mem_append] at hx
      rw [hseq', List.mem_append, List.mem_cons]
      exact hx.imp_right .inr
  · obtain ⟨⟨ret, rbtt'⟩, hrem, hr⟩ := stdRbtreeRemove_spec hs hcmp hd
    rcases hr with ⟨heq, hno⟩ | ⟨z, t', xs, ys, hret, hs', hseq, hseq', heq, -⟩
    · obtain ⟨rfl, rfl⟩ := Prod.mk.inj heq
      exact ⟨NULL, rbtt', seq t, hrem, inorder_eq hs.shape, by simpa using hno, fun _ => rfl,
        by simp, keepsData_of_sublist hs.shape (fun _ => id) fun _ => id⟩
    · simp only at hret hseq heq
      refine ⟨ret, rbtt', seq t', hrem, inorder_eq hs'.shape,
        ⟨fun h => absurd h hret, fun hno => ?_⟩, fun h => absurd h hret,
        fun _ => ⟨z, xs, ys, hseq, hseq', heq⟩,
        keepsData_of_sublist hs.shape (fun _ => id) fun x hx => ?_⟩
      · exact absurd heq (hno (z, ret) (by simp [hseq]))
      · rw [hseq', List.mem_append] at hx
        rw [hseq, List.mem_append, List.mem_cons]
        exact hx.imp_right .inr

/-- In the table of `sampleOps` the user node 209 goes behind those with the same key. -/
theorem rbtree_refines_sequence_sample : ∃ rbtt s s',
    runAll (stdRbtreeCreate compareKeys) sampleOps = .ok rbtt ∧ rbtt.inorder = .ok s ∧
      Inserted compareKeys 209 s s' := by
  obtain ⟨rbtt, s, hrun, hs, hins, -⟩ :=
    rbtree_refines_sequence compareKeys totalPreorder_compareKeys sampleOps sampleOps_nonNull
  obtain ⟨ok, rbtt', s', -, -, hok, -, hinserted, -⟩ := hins .above 209 (by decide)
  cases ok with
  | false =>
    obtain ⟨p, hp⟩ := Malloc.succeeds_above rbtt.nodes
    rw [hok.mp rfl] at hp
    cases hp
  | true => exact ⟨rbtt, s, s', hrun, hs, hinserted rfl⟩

end OpxCommonUtils.RbTree
