import Mathlib.Data.List.Nodup

/-!
# Positions in a list without duplicates

A list that several readers walk, each of which keeps its place by an element of its own in the
list: what stands behind an element, insertion next to it, and how the movements of one reader
look to the others.
-/

namespace OpxCommonUtils

variable {α : Type} [DecidableEq α]

/-- What stands behind `x`. -/
def after (x : α) : List α → List α
  | [] => []
  | y :: ys => if y = x then ys else after x ys

/-- `new` goes right behind `x`. -/
def insertAfter (x new : α) : List α → List α
  | [] => []
  | y :: ys => if y = x then y :: new :: ys else y :: insertAfter x new ys

/-- `new` goes right before `x`. -/
def insertBefore (x new : α) : List α → List α
  | [] => []
  | y :: ys => if y = x then new :: y :: ys else y :: insertBefore x new ys

/-! ## At a known place -/

theorem after_append_cons {x : α} {pre : List α} (post : List α) (hx : x ∉ pre) :
    after x (pre ++ x :: post) = post := by
  induction pre with
  | nil => simp [after]
  | cons y ys ih =>
    have hne : y ≠ x := fun h => hx (by simp [h])
    rw [List.cons_append, after, if_neg hne]
    exact ih fun h => hx (List.mem_cons_of_mem _ h)

theorem insertAfter_append_cons {x : α} {pre : List α} (new : α) (post : List α) (hx : x ∉ pre) :
    insertAfter x new (pre ++ x :: post) = pre ++ x :: new :: post := by
  induction pre with
  | nil => simp [insertAfter]
  | cons y ys ih =>
    have hne : y ≠ x := fun h => hx (by simp [h])
    rw [List.cons_append, insertAfter, if_neg hne,
      ih fun h => hx (List.mem_cons_of_mem _ h), List.cons_append]

theorem insertBefore_append_cons {x : α} {pre : List α} (new : α) (post : List α)
    (hx : x ∉ pre) : insertBefore x new (pre ++ x :: post) = pre ++ new :: x :: post := by
  induction pre with
  | nil => simp [insertBefore]
  | cons y ys ih =>
    have hne : y ≠ x := fun h => hx (by simp [h])
    rw [List.cons_append, insertBefore, if_neg hne,
      ih fun h => hx (List.mem_cons_of_mem _ h), List.cons_append]

theorem erase_append_cons {x : α} {pre : List α} (post : List α) (hx : x ∉ pre) :
    (pre ++ x :: post).erase x = pre ++ post := by
  rw [List.erase_append_right _ hx, List.erase_cons_head]

/-! ## As another reader sees it -/

/-- Leaving out elements other than `x` leaves them out behind `x`. -/
theorem after_filter {x : α} {p : α → Bool} (hx : p x = true) (l : List α) :
    after x (l.filter p) = (after x l).filter p := by
  induction l with
  | nil => rfl
  | cons y ys ih =>
    by_cases hy : y = x
    · rw [hy, List.filter_cons_of_pos hx, after, if_pos rfl, after, if_pos rfl]
    · rw [after, if_neg hy]
      cases hp : p y with
      | false => rw [List.filter_cons_of_neg (by simp [hp]), ih]
      | true => rw [List.filter_cons_of_pos hp, after, if_neg hy, ih]

theorem after_append_of_mem {x : α} {l : List α} (hx : x ∈ l) (l' : List α) :
    after x (l ++ l') = after x l ++ l' := by
  induction l with
  | nil => cases hx
  | cons y ys ih =>
    rw [List.cons_append, after, after]
    by_cases hy : y = x
    · rw [if_pos hy, if_pos hy]
    · rw [if_neg hy, if_neg hy]
      exact ih ((List.mem_cons.mp hx).resolve_left fun h => hy h.symm)

/-- The place of a reader `y` does not change what another reader `x` sees of the elements that
are not readers. -/
theorem filter_after_insert {x y : α} {p : α → Bool} (hne : y ≠ x) (hy : p y = false)
    (pre post : List α) :
    (after x (pre ++ y :: post)).filter p = (after x (pre ++ post)).filter p := by
  induction pre with
  | nil => rw [List.nil_append, List.nil_append, after, if_neg hne]
  | cons z zs ih =>
    rw [List.cons_append, List.cons_append, after, after]
    split
    · simp [hy]
    · exact ih

end OpxCommonUtils
