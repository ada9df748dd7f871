import OpxCommonUtils.Radix.Proofs.ChangeFrame
import OpxCommonUtils.Radix.Proofs.Refinement
import OpxCommonUtils.Radix.Walk

/-!
# Where a version walk is

While a walk is in progress its marks and its lock are in known places: the node that the callback
is called for is the only locked one, and a marked node that still has a head lies on the path from
the walker to the root. `Placed` says so, and moving the walker keeps it.
-/

namespace OpxCommonUtils.Radix

open Tree Trie LinkTree

/-- The payload is marked for deletion. -/
def RtVal.marked (v : RtVal) : Bool := rdxTestBit v.flags RDX_RN_DELE_BIT

/-- Marked nodes that still have a head are the node at the hole or lie above it. -/
def MarksAbove (c : List (Frame RtVal)) (s : Tree RtVal) : Prop :=
  ∀ x ∈ (plug c s).pre, x.2.rth ≠ NULL → x.2.marked = true →
    x.1 = s.root NULL ∨ ∃ f ∈ c, f.ptr = x.1

/-- No node is locked. -/
def Unlocked (t : Tree RtVal) : Prop := ∀ x ∈ t.pre, x.2.lock = 0

/-- No node that has a head is marked. -/
def NoMarks (t : Tree RtVal) : Prop := ∀ x ∈ t.pre, x.2.rth ≠ NULL → x.2.marked = false

/-- The walker is at a node, below all marks, or has left the tree. -/
inductive WalkerAt (t : Tree RtVal) : Ptr → Prop
  | gone : NoMarks t → WalkerAt t NULL
  | node {c : List (Frame RtVal)} {p : Ptr} {v : RtVal} {l r : Tree RtVal} :
      plug c (.node p v l r) = t → MarksAbove c (.node p v l r) → WalkerAt t p

/-- The marks and locks of a tree while the program is where `control` says. -/
def Placed (t : Tree RtVal) : Control → Prop
  | .outside => Unlocked t ∧ NoMarks t
  | .loop w => Unlocked t ∧ WalkerAt t w.rtn
  | .callback w => ∃ c v l r, plug c (.node w.rtn v l r) = t ∧ MarksAbove c (.node w.rtn v l r) ∧
      v.rth ≠ NULL ∧ v.lock = 1 ∧ ∀ x ∈ t.pre, x.1 ≠ w.rtn → x.2.lock = 0
  | .climb _ y => Unlocked t ∧ y ≠ NULL ∧ WalkerAt t y

section
variable {t : Tree RtVal} {c : List (Frame RtVal)} {p : Ptr} {v : RtVal} {l r : Tree RtVal}

theorem MarksAbove.of_noMarks (h : NoMarks (plug c l)) : MarksAbove c l := by
  intro x hx h0 hm
  rw [h x hx h0] at hm
  cases hm

/-- The walker steps down to the left. -/
theorem MarksAbove.left (h : MarksAbove c (.node p v l r)) :
    MarksAbove (⟨.left, p, v, r⟩ :: c) l := by
  intro x hx h0 hm
  rcases h x hx h0 hm with heq | ⟨f, hf, heq⟩
  · exact .inr ⟨_, List.mem_cons_self, heq.symm⟩
  · exact .inr ⟨f, List.mem_cons_of_mem _ hf, heq⟩

/-- The walker steps down to the right. -/
theorem MarksAbove.right (h : MarksAbove c (.node p v l r)) :
    MarksAbove (⟨.right, p, v, l⟩ :: c) r := by
  intro x hx h0 hm
  rcases h x hx h0 hm with heq | ⟨f, hf, heq⟩
  · exact .inr ⟨_, List.mem_cons_self, heq.symm⟩
  · exact .inr ⟨f, List.mem_cons_of_mem _ hf, heq⟩

/-- A walker at the root of a subtree. -/
theorem WalkerAt.of_subtree {s : Tree RtVal} (heq : plug c s = t) (hs : s ≠ .nil)
    (h : MarksAbove c s) : WalkerAt t (s.root NULL) := by
  cases s with
  | nil => exact absurd rfl hs
  | node p v l r => exact .node heq h

/-- A walker above the hole, when all marks are above it. -/
theorem WalkerAt.of_context {s : Tree RtVal} (heq : plug c s = t)
    (h : ∀ x ∈ t.pre, x.2.rth ≠ NULL → x.2.marked = true → ∃ f ∈ c, f.ptr = x.1) :
    WalkerAt t (Ctx.top NULL c) := by
  cases c with
  | nil =>
    refine .gone fun x hx h0 => ?_
    by_contra hm
    obtain ⟨f, hf, -⟩ := h x hx h0 (by simpa using hm)
    cases hf
  | cons f d =>
    rw [Ctx.top_cons, ← root_join NULL f.ptr f.side f.val s f.sib]
    rw [plug_cons] at heq
    refine .of_subtree heq (by simp) fun x hx h0 hm => ?_
    obtain ⟨g, hg, hgx⟩ := h x (heq ▸ hx) h0 hm
    rw [root_join]
    rcases List.mem_cons.mp hg with rfl | hg
    · exact .inl hgx.symm
    · exact .inr ⟨g, hg, hgx⟩

/-- The walker steps up from a node that is not marked. -/
theorem WalkerAt.up (hnd : t.ptrs.Nodup) (heq : plug c (.node p v l r) = t)
    (h : MarksAbove c (.node p v l r)) (hm : v.rth ≠ NULL → v.marked = false) :
    WalkerAt t (Ctx.top NULL c) := by
  refine .of_context heq fun x hx h0 hmx => (h x (heq ▸ hx) h0 hmx).resolve_left fun hxp => ?_
  have hpv : (p, v) ∈ t.pre := by
    rw [← heq, mem_pre_plug]
    simp [pre]
  rw [← map_fst_pre] at hnd
  obtain rfl := List.inj_on_of_nodup_map hnd hx hpv hxp
  rw [hm h0] at hmx
  cases hmx

/-- The payload of the walker's node is overwritten. -/
theorem MarksAbove.setVal (h : MarksAbove c (.node p v l r)) (v' : RtVal)
    (hnd : (plug c (.node p v l r)).ptrs.Nodup) : MarksAbove c (.node p v' l r) := by
  intro x hx h0 hm
  rcases mem_pre_of_setVal hnd hx with rfl | ⟨hx, -⟩
  · exact .inl rfl
  · exact h x hx h0 hm

end

/-! ## After a removal -/

/-- Where `_std_radix_remove` leaves the walker. -/
theorem Pruned.walkerAt {dir : RtTable.Dir} {p : Ptr} {v : RtVal} {c : List (Frame RtVal)}
    {l r t' : Tree RtVal} {ps : List Ptr} {ret : Ptr × RtTable.Dir}
    (h : Pruned dir p v c l r t' ps ret) (hnd : (plug c (.node p v l r)).ptrs.Nodup)
    (hmarks : MarksAbove c (.node p v l r)) : WalkerAt t' ret.1 := by
  -- what is still marked and has a head is above the node that went
  have habove : ∀ x ∈ t'.pre, x.2.rth ≠ NULL → x.2.marked = true → ∃ f ∈ c, f.ptr = x.1 := by
    intro x hx h0 hm
    rcases h.mem_pre hnd hx with rfl | ⟨hx, hxp⟩
    · exact absurd rfl h0
    · exact (hmarks x hx h0 hm).resolve_left hxp
  have hgone : ∀ x ∈ t'.pre, x.1 ∉ ps := by
    intro x hx hps
    refine (List.nodup_append'.mp (h.ptrs_perm.nodup_iff.mp hnd)).2.2 hps ?_
    rw [← map_fst_pre]
    exact List.mem_map_of_mem (f := Prod.fst) hx
  cases h with
  | keep => exact .of_context rfl habove
  | last => exact .gone fun x hx => by simp [pre] at hx
  | @leaf f d h0 =>
    exact .of_context (c := f :: d) rfl habove
  | @collapse f d h0 hsib =>
    have hnot : ∀ x ∈ (plug d f.sib).pre, x.2.rth ≠ NULL → x.2.marked = true →
        ∃ g ∈ d, g.ptr = x.1 := by
      intro x hx hx0 hm
      obtain ⟨g, hg, hgx⟩ := habove x hx hx0 hm
      rcases List.mem_cons.mp hg with rfl | hg
      · exact absurd (by simp [hgx]) (hgone x hx)
      · exact ⟨g, hg, hgx⟩
    unfold promoteRet
    cases f.side.flip with
    | left => exact .of_context rfl hnot
    | right => exact .of_subtree rfl hsib fun x hx hx0 hm => .inr (hnot x hx hx0 hm)
  | @promote _ l r S s hS heq =>
    unfold promoteRet
    cases s with
    | left => exact .of_context rfl habove
    | right => exact .of_subtree rfl hS fun x hx hx0 hm => .inr (habove x hx hx0 hm)

end OpxCommonUtils.Radix
