import Mathlib.Data.List.Chain

/-!
# Doubly linked sequences

Two partial functions, `next` and `back`, link the elements of a list in both directions. What has
to be true of changed functions for them to link the list with an element put between two
neighbours, or taken out.
-/

namespace OpxCommonUtils

variable {P : Type}

/-- `y` follows `x`. -/
def Adjacent (next back : P → Option P) (x y : P) : Prop := next x = some y ∧ back y = some x

/-- The elements of `l`, all different, are linked in order. -/
structure Linked (next back : P → Option P) (l : List P) : Prop where
  nodup : l.Nodup
  chain : l.IsChain (Adjacent next back)

namespace Linked

variable {next back next' back' : P → Option P} {pre post l : List P} {a b x : P}

theorem adjacent (h : Linked next back (pre ++ a :: b :: post)) : Adjacent next back a b :=
  (List.isChain_append_cons_cons.mp h.chain).2.1

theorem next_eq (h : Linked next back (pre ++ a :: b :: post)) : next a = some b := h.adjacent.1

theorem congr (h : Linked next back l) (hnext : ∀ y ∈ l, next' y = next y)
    (hback : ∀ y ∈ l, back' y = back y) : Linked next' back' l :=
  ⟨h.nodup, List.IsChain.imp_of_mem_imp (fun y z hy hz hyz =>
    ⟨(hnext y hy).trans hyz.1, (hback z hz).trans hyz.2⟩) h.chain⟩

/-- A chain whose last element is `a` does not depend on what follows `a`. -/
theorem chain_left (h : (pre ++ [a]).IsChain (Adjacent next back))
    (hend : ∀ y ∈ pre ++ [a], next a ≠ some y)
    (hnext : ∀ y ∈ pre ++ [a], y ≠ a → next' y = next y)
    (hback : ∀ y ∈ pre ++ [a], back' y = back y) :
    (pre ++ [a]).IsChain (Adjacent next' back') := by
  refine List.IsChain.imp_of_mem_imp (fun y z hy hz hyz => ⟨?_, ?_⟩) h
  · rw [hnext y hy ?_, hyz.1]
    rintro rfl
    exact hend z hz hyz.1
  · rw [hback z hz, hyz.2]

/-- A chain whose first element is `b` does not depend on what precedes `b`. -/
theorem chain_right (h : (b :: post).IsChain (Adjacent next back))
    (hend : ∀ y ∈ b :: post, back b ≠ some y)
    (hnext : ∀ y ∈ b :: post, next' y = next y)
    (hback : ∀ y ∈ b :: post, y ≠ b → back' y = back y) :
    (b :: post).IsChain (Adjacent next' back') := by
  refine List.IsChain.imp_of_mem_imp (fun y z hy hz hyz => ⟨?_, ?_⟩) h
  · rw [hnext y hy, hyz.1]
  · rw [hback z hz ?_, hyz.2]
    rintro rfl
    exact hend y hy hyz.2

/-- An element is put between two neighbours. -/
theorem insert (h : Linked next back (pre ++ a :: b :: post)) (hx : x ∉ pre ++ a :: b :: post)
    (hax : Adjacent next' back' a x) (hxb : Adjacent next' back' x b)
    (hnext : ∀ y, y ≠ a → y ≠ x → next' y = next y)
    (hback : ∀ y, y ≠ b → y ≠ x → back' y = back y) :
    Linked next' back' (pre ++ a :: x :: b :: post) := by
  have hnd := h.nodup
  obtain ⟨hleft, hab, hright⟩ := List.isChain_append_cons_cons.mp h.chain
  simp only [List.nodup_append, List.nodup_cons, List.mem_cons, not_or] at hnd
  simp only [List.mem_append, List.mem_cons, not_or] at hx
  refine ⟨?_, List.isChain_append_cons_cons.mpr ⟨?_, hax, List.isChain_cons_cons.mpr ⟨hxb, ?_⟩⟩⟩
  · simp only [List.nodup_append, List.nodup_cons, List.mem_cons, not_or]
    grind
  · refine chain_left hleft ?_ (fun y hy hya => hnext y hya ?_) fun y hy => hback y ?_ ?_ <;>
      grind [Adjacent]
  · refine chain_right hright ?_ (fun y hy => hnext y ?_ ?_) fun y hy hyb => hback y hyb ?_ <;>
      grind [Adjacent]

/-- An element between two neighbours is taken out. -/
theorem remove (h : Linked next back (pre ++ a :: x :: b :: post))
    (hab : Adjacent next' back' a b) (hnext : ∀ y, y ≠ a → y ≠ x → next' y = next y)
    (hback : ∀ y, y ≠ b → y ≠ x → back' y = back y) :
    Linked next' back' (pre ++ a :: b :: post) := by
  have hnd := h.nodup
  obtain ⟨hleft, hax, hright⟩ := List.isChain_append_cons_cons.mp h.chain
  obtain ⟨hxb, hright⟩ := List.isChain_cons_cons.mp hright
  simp only [List.nodup_append, List.nodup_cons, List.mem_cons, not_or] at hnd
  refine ⟨?_, List.isChain_append_cons_cons.mpr ⟨?_, hab, ?_⟩⟩
  · simp only [List.nodup_append, List.nodup_cons, List.mem_cons, not_or]
    grind
  · refine chain_left hleft ?_ (fun y hy hya => hnext y hya ?_) fun y hy => hback y ?_ ?_ <;>
      grind [Adjacent]
  · refine chain_right hright ?_ (fun y hy => hnext y ?_ ?_) fun y hy hyb => hback y hyb ?_ <;>
      grind [Adjacent]

end Linked

end OpxCommonUtils
