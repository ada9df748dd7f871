import OpxCommonUtils.Misc.LinkTree
import Mathlib.Order.Basic

/-!
# Labels that bound those below

Every node of a tree carries a label, `rank`, that is not below the labels of its children nor below
a weight of its own. So the label of a node bounds the weights of its subtree (`Capped.weight_le`),
and a search for great weights may leave out the subtree of a small label. `capped_plug` splits such
a tree at a hole: what is put there has to respect the cap of the hole.
-/

namespace OpxCommonUtils.Tree

variable {α β : Type} [Preorder α] (rank weight : β → α)

/-- The labels bound what is below, and `a` bounds the labels. -/
def Capped (a : α) : Tree β → Prop
  | .nil => True
  | .node _ v l r => weight v ≤ rank v ∧ rank v ≤ a ∧ Capped (rank v) l ∧ Capped (rank v) r

/-- What bounds the labels in the hole of a context. -/
def capAt (a : α) : List (Frame β) → α
  | [] => a
  | f :: _ => rank f.val

/-- The labels of a context bound what is below, and `a` bounds the labels. -/
def CtxCapped (a : α) : List (Frame β) → Prop
  | [] => True
  | f :: c => weight f.val ≤ rank f.val ∧ rank f.val ≤ capAt rank a c ∧
      Capped rank weight (rank f.val) f.sib ∧ CtxCapped a c

variable {rank weight} {a b : α} {p : Ptr} {v : β} {l r s : Tree β} {c : List (Frame β)}

theorem capped_node : Capped rank weight a (.node p v l r) ↔
    weight v ≤ rank v ∧ rank v ≤ a ∧ Capped rank weight (rank v) l ∧
      Capped rank weight (rank v) r := Iff.rfl

theorem capped_join {side : Side} {near far : Tree β} :
    Capped rank weight a (join side p v near far) ↔ weight v ≤ rank v ∧ rank v ≤ a ∧
      Capped rank weight (rank v) near ∧ Capped rank weight (rank v) far := by
  cases side with
  | left => exact capped_node
  | right =>
    rw [and_comm (a := Capped rank weight (rank v) near)]
    exact capped_node

/-- A tree with a hole and what is in the hole. -/
theorem capped_plug : Capped rank weight a (plug c s) ↔
    CtxCapped rank weight a c ∧ Capped rank weight (capAt rank a c) s := by
  induction c generalizing s with
  | nil => exact (true_and _).symm.to_iff
  | cons f c ih =>
    rw [plug_cons, ih, capped_join, CtxCapped, capAt]
    tauto

theorem Capped.mono (h : Capped rank weight a s) (hab : a ≤ b) : Capped rank weight b s := by
  cases s with
  | nil => trivial
  | node p v l r =>
    obtain ⟨hw, hr, hl, hright⟩ := h
    exact ⟨hw, hr.trans hab, hl, hright⟩

/-- A subtree with its own label as the cap. -/
theorem Capped.self (h : Capped rank weight a (.node p v l r)) :
    Capped rank weight (rank v) (.node p v l r) := ⟨h.1, le_rfl, h.2.2⟩

/-- No weight is above the bound. -/
theorem Capped.weight_le (h : Capped rank weight a s) : ∀ x ∈ s.pre, weight x.2 ≤ a := by
  induction s generalizing a with
  | nil =>
    intro x hx
    cases hx
  | node p v l r ihl ihr =>
    obtain ⟨hw, hr, hl, hright⟩ := h
    intro x hx
    rw [pre, List.mem_cons, List.mem_append] at hx
    rcases hx with rfl | hx | hx
    · exact hw.trans hr
    · exact (ihl hl x hx).trans hr
    · exact (ihr hright x hx).trans hr

/-- The weights of the cells decide. -/
theorem Capped.congr {weight' : β → α} (h : Capped rank weight a s)
    (heq : ∀ x ∈ s.pre, weight' x.2 = weight x.2) : Capped rank weight' a s := by
  induction s generalizing a with
  | nil => trivial
  | node p v l r ihl ihr =>
    obtain ⟨hw, hr, hl, hright⟩ := h
    have hself := heq (p, v) (by simp [pre])
    refine ⟨hself.trans_le hw, hr, ihl hl ?_, ihr hright ?_⟩
    · exact fun x hx => heq x (by simp [pre, hx])
    · exact fun x hx => heq x (by simp [pre, hx])

theorem CtxCapped.capAt_le (h : CtxCapped rank weight a c) : capAt rank a c ≤ a := by
  induction c with
  | nil => exact le_rfl
  | cons f c ih =>
    obtain ⟨-, hr, -, hc⟩ := h
    exact hr.trans (ih hc)

/-- The label above a hole is raised to a bound of all the labels, and what is in the hole keeps to
it. -/
theorem CtxCapped.raise {f : Frame β} {v' : β} (h : CtxCapped rank weight a (f :: c)) (hab : a ≤ b)
    (hrank : rank v' = b) (hweight : weight v' = weight f.val) (hs : Capped rank weight b s) :
    Capped rank weight b (join f.side f.ptr v' s f.sib) := by
  obtain ⟨hw, hr, hsib, hc⟩ := h
  have hle : rank f.val ≤ b := (hr.trans hc.capAt_le).trans hab
  rw [capped_join, hrank, hweight]
  exact ⟨hw.trans hle, le_rfl, hs, hsib.mono hle⟩

end OpxCommonUtils.Tree
