import OpxCommonUtils.Sort.Proofs.MergeSort

/-!
# When the index arithmetic of the merge sort stays in range

The midpoint adds the bounds of a range. The ranges at the right end shrink to the last two or three
slots, so a sort of `n` elements comes to a sum of at least `2 * n - 4`.
-/

namespace OpxCommonUtils.Sort

variable {α : Type} {n : Int}

/-- A range of at least two slots leads to a sum of two indices close to its end. -/
theorem exists_index_sum (cmp : α → α → Int) {P : Event → Prop} {fuel : Nat} {left right : Int}
    (hleft : 0 ≤ left) (hlr : left < right) (hfuel : (right - left).toNat < fuel)
    (arrays : Arrays α)
    (h : Traced.All P (stdMergeSortDivideNSort cmp fuel arrays left right)) :
    ∃ sum, P (.int sum) ∧ 2 * right - 2 ≤ sum := by
  induction fuel generalizing left arrays with
  | zero => omega
  | succ fuel ih =>
    rw [stdMergeSortDivideNSort, if_pos hlr] at h
    obtain ⟨hsum, h⟩ := Traced.all_bind.mp h
    by_cases hshort : right ≤ left + 2
    case pos =>
      exact ⟨right + left, hsum _ (List.mem_singleton_self _), by omega⟩
    case neg =>
      -- The right half still has two slots, and it is sorted once the left half is.
      have hmid : (right + left).tdiv 2 = (right + left) / 2 :=
        Int.tdiv_eq_ediv_of_nonneg (by omega)
      obtain ⟨arrays', hruns, -⟩ := stdMergeSortDivideNSort_runs (n := right) cmp hleft
        (show (right + left).tdiv 2 < right by omega)
        (show ((right + left).tdiv 2 - left).toNat < fuel by omega) arrays
      have h := (Traced.all_bind.mp (h () rfl)).2 () rfl
      have h := (Traced.all_bind.mp h).2 arrays' hruns.result
      have h := (Traced.all_bind.mp h).2 () rfl
      have h := (Traced.all_bind.mp h).1
      exact ih (by omega) (by omega) (by omega) arrays' h

/-- For every number of elements that the parameter's type admits, no `int` expression overflows at
any depth of the recursion if and only if there are at most `2 ^ 30 + 1` elements. -/
theorem stdMergeSort_inInt_iff (cmp : α → α → Int) (n : Int) (hn : 0 ≤ n) (hn' : n ≤ 2 ^ 31 - 1)
    (arrays : Arrays α) (fuel : Nat) (hfuel : n.toNat < fuel) :
    Traced.All Event.InInt (stdMergeSort cmp fuel arrays n) ↔ n ≤ 2 ^ 30 + 1 := by
  constructor
  · intro h
    by_contra hbig
    have h := (Traced.all_bind.mp h).2 () rfl
    obtain ⟨sum, hsum, hlarge⟩ := exists_index_sum cmp le_rfl (show 0 < n - 1 by omega)
      (by omega) arrays h
    have := hsum.2
    omega
  · intro h
    obtain ⟨_, hruns, -⟩ := stdMergeSort_runs cmp hn hfuel arrays
    exact fun e he => (hruns.all e he).inInt h

theorem stdMergeSort_inInt_iff_threePairs :
    Traced.All Event.InInt (stdMergeSort (fun a b => a.1 - b.1) 4 threePairs 3) ↔
      (3 : Int) ≤ 2 ^ 30 + 1 :=
  stdMergeSort_inInt_iff _ 3 (by decide) (by decide) threePairs 4 (by decide)

/-- Sorting as many elements as the parameter's type admits overflows. -/
theorem stdMergeSort_overflows :
    ¬ Traced.All Event.InInt (stdMergeSort (fun a b => a.1 - b.1) (2 ^ 31) threePairs
      (2 ^ 31 - 1)) := by
  intro h
  have h := (Traced.all_bind.mp h).2 () rfl
  obtain ⟨sum, hsum, hlarge⟩ := exists_index_sum _ le_rfl
    (show (0 : Int) < 2 ^ 31 - 1 - 1 by omega) (by omega) threePairs h
  have := hsum.2
  omega

end OpxCommonUtils.Sort
