import OpxCommonUtils.Misc.Slices
import OpxCommonUtils.Misc.StableSort
import OpxCommonUtils.Sort.MergeSort

/-!
# The merge sort sorts stably

The loops of a merge write the merge of the two halves, as lists, into the work array and copy it
back; the recursion then carries the stable sorting of each range. Every event on the way keeps the
bounds of `Event.Within`, whatever the comparison function answers.
-/

namespace OpxCommonUtils.Sort

open Traced (Runs)

variable {α : Type} {cmp : α → α → Int} {n : Int}

/-- The bounds of a run on `n` slots: the slots are those from `0` to `n - 1`, and no `int` is
above the larger one of the number of slots and the greatest sum of two different indices. -/
def Event.Within (n : Int) : Event → Prop
  | .int value => -1 ≤ value ∧ (value ≤ n ∨ value ≤ 2 * n - 3)
  | .read _ index | .write _ index => 0 ≤ index ∧ index < n

theorem int_runs {value : Int} (h : -1 ≤ value ∧ (value ≤ n ∨ value ≤ 2 * n - 3)) :
    Runs (Event.Within n) (int value) () := by
  apply Runs.emit
  intro e he
  rw [List.mem_singleton.mp he]
  exact h

theorem cmpFunc_runs {arrays : Arrays α} {i j : Int} (hi : 0 ≤ i ∧ i < n) (hj : 0 ≤ j ∧ j < n) :
    Runs (Event.Within n) (cmpFunc cmp arrays i j) (cmp (arrays .array i) (arrays .array j)) := by
  unfold cmpFunc
  refine Runs.bind (Runs.emit ?_) (Runs.pure _)
  intro e he
  rcases List.mem_cons.mp he with rfl | he
  · exact hi
  · rw [List.mem_singleton.mp he]
    exact hj

/-- The arrays with the elements of `l` in the slots of `name` from `lo` on. -/
def storeIn (arrays : Arrays α) (name : ArrayName) (lo : Int) (l : List α) : Arrays α :=
  Function.update arrays name (store (arrays name) lo l)

@[simp] theorem storeIn_self (arrays : Arrays α) (name : ArrayName) (lo : Int) (l : List α) :
    storeIn arrays name lo l name = store (arrays name) lo l := Function.update_self ..

theorem storeIn_of_ne (arrays : Arrays α) {name other : ArrayName} (h : other ≠ name) (lo : Int)
    (l : List α) : storeIn arrays name lo l other = arrays other := Function.update_of_ne h ..

@[simp] theorem storeIn_tmpArray_array (arrays : Arrays α) (lo : Int) (l : List α) :
    storeIn arrays .tmpArray lo l .array = arrays .array := storeIn_of_ne arrays (by decide) lo l

@[simp] theorem storeIn_array_tmpArray (arrays : Arrays α) (lo : Int) (l : List α) :
    storeIn arrays .array lo l .tmpArray = arrays .tmpArray :=
  storeIn_of_ne arrays (by decide) lo l

@[simp] theorem storeIn_nil (arrays : Arrays α) (name : ArrayName) (lo : Int) :
    storeIn arrays name lo [] = arrays := by
  simp [storeIn]

theorem storeIn_append (arrays : Arrays α) (name : ArrayName) (lo : Int) (l r : List α) :
    storeIn arrays name lo (l ++ r) =
      storeIn (storeIn arrays name lo l) name (lo + l.length) r := by
  simp [storeIn, store_append]

theorem storeIn_cons (arrays : Arrays α) (name : ArrayName) (lo : Int) (x : α) (l : List α) :
    storeIn arrays name lo (x :: l) = storeIn (storeIn arrays name lo [x]) name (lo + 1) l :=
  storeIn_append arrays name lo [x] l

theorem storeIn_concat (arrays : Arrays α) (name : ArrayName) (lo : Int) (l : List α) (x : α) :
    storeIn arrays name lo (l ++ [x]) =
      storeIn (storeIn arrays name (lo + l.length) [x]) name lo l := by
  simp [storeIn, store_concat, store_cons]

/-- Outside the stretch nothing changes. -/
theorem storeIn_outside (arrays : Arrays α) (name other : ArrayName) {lo i : Int} {l : List α}
    (h : i < lo ∨ lo + l.length ≤ i) : storeIn arrays name lo l other i = arrays other i := by
  by_cases hname : other = name
  · subst hname
    rw [storeIn_self]
    rcases h with h | h
    · exact store_below h
    · exact store_above h
  · rw [storeIn_of_ne arrays hname]

theorem copyFunc_runs {arrays : Arrays α} {dst src : ArrayName} {i j : Int} (hi : 0 ≤ i ∧ i < n)
    (hj : 0 ≤ j ∧ j < n) :
    Runs (Event.Within n) (copyFunc arrays dst i src j) (storeIn arrays dst i [arrays src j]) := by
  have hstore : storeIn arrays dst i [arrays src j] =
      Function.update arrays dst (Function.update (arrays dst) i (arrays src j)) := by
    rw [storeIn, store_cons, store_nil]
  rw [hstore]
  unfold copyFunc
  refine Runs.bind (Runs.emit ?_) (Runs.pure _)
  intro e he
  rcases List.mem_cons.mp he with rfl | he
  · exact hj
  · rw [List.mem_singleton.mp he]
    exact hi

/-- The loop writes the merge of the halves up to where one of them is used up. -/
theorem mergeLoop_runs (cmp : α → α → Int) {leftEnd right : Int} (hle : leftEnd < n)
    (hr : right < n) (m : MergeState α) (hleft : 0 ≤ m.left) (hleft' : m.left ≤ leftEnd + 1)
    (hmid : 0 ≤ m.mid) (hmid' : m.mid ≤ right + 1) (hpos : 0 ≤ m.currPos)
    (hpos' : m.currPos + (leftEnd + 1 - m.left) + (right + 1 - m.mid) ≤ n) :
    ∃ (written : List α) (left mid : Int),
      Runs (Event.Within n) (mergeLoop cmp leftEnd right m)
        ⟨storeIn m.arrays .tmpArray m.currPos written, left, mid, m.currPos + written.length⟩ ∧
      m.left ≤ left ∧ left ≤ leftEnd + 1 ∧ m.mid ≤ mid ∧ mid ≤ right + 1 ∧
      (written.length : Int) = (left - m.left) + (mid - m.mid) ∧
      mergeBy cmp (between (m.arrays .array) m.left leftEnd)
          (between (m.arrays .array) m.mid right) =
        written ++ between (m.arrays .array) left leftEnd ++
          between (m.arrays .array) mid right := by
  induction hk : (leftEnd + 1 - m.left).toNat + (right + 1 - m.mid).toNat generalizing m with
  | zero =>
    refine ⟨[], m.left, m.mid, ?_, le_rfl, hleft', le_rfl, hmid', by simp, ?_⟩
    · rw [mergeLoop, dif_neg (by omega)]
      simpa using Runs.pure m
    · rw [between_of_lt _ (by omega)]
      simp
  | succ k ih =>
    rw [mergeLoop]
    by_cases h : m.left ≤ leftEnd ∧ m.mid ≤ right
    case neg =>
      refine ⟨[], m.left, m.mid, ?_, le_rfl, hleft', le_rfl, hmid', by simp, ?_⟩
      · rw [dif_neg h]
        simpa using Runs.pure m
      · rcases not_and_or.mp h with h | h
        · rw [between_of_lt _ (by omega)]
          simp
        · rw [between_of_lt (m.arrays .array) (show right < m.mid by omega)]
          simp
    case pos =>
      rw [dif_pos h]
      by_cases hcmp : cmp (m.arrays .array m.left) (m.arrays .array m.mid) ≤ 0
      · obtain ⟨written, left, mid, hruns, h1, h2, h3, h4, hlen, hmerge⟩ :=
          ih ⟨storeIn m.arrays .tmpArray m.currPos [m.arrays .array m.left], m.left + 1, m.mid,
            m.currPos + 1⟩ (by dsimp only; omega) (by dsimp only; omega) hmid hmid'
            (by dsimp only; omega) (by dsimp only; omega) (by dsimp only; omega)
        dsimp only at hruns h1 h3 hlen hmerge
        refine ⟨m.arrays .array m.left :: written, left, mid, ?_, by omega, h2, h3, h4,
          by simp only [List.length_cons]; omega, ?_⟩
        · apply Runs.bind (cmpFunc_runs (by omega) (by omega))
          rw [if_pos hcmp]
          apply Runs.bind (copyFunc_runs (by omega) (by omega))
          apply Runs.bind (int_runs (by omega))
          apply Runs.bind (int_runs (by omega))
          rw [storeIn_cons _ _ _ _ written, List.length_cons, Nat.cast_succ,
            add_comm (written.length : Int) 1, ← add_assoc]
          exact hruns
        · rw [between_cons _ h.1, between_cons _ h.2, mergeBy_cons_of_le hcmp,
            ← between_cons _ h.2]
          rw [storeIn_tmpArray_array] at hmerge
          rw [hmerge]
          rfl
      · obtain ⟨written, left, mid, hruns, h1, h2, h3, h4, hlen, hmerge⟩ :=
          ih ⟨storeIn m.arrays .tmpArray m.currPos [m.arrays .array m.mid], m.left, m.mid + 1,
            m.currPos + 1⟩ hleft hleft' (by dsimp only; omega) (by dsimp only; omega)
            (by dsimp only; omega) (by dsimp only; omega) (by dsimp only; omega)
        dsimp only at hruns h1 h3 hlen hmerge
        refine ⟨m.arrays .array m.mid :: written, left, mid, ?_, h1, h2, by omega, h4,
          by simp only [List.length_cons]; omega, ?_⟩
        · apply Runs.bind (cmpFunc_runs (by omega) (by omega))
          rw [if_neg hcmp]
          apply Runs.bind (copyFunc_runs (by omega) (by omega))
          apply Runs.bind (int_runs (by omega))
          apply Runs.bind (int_runs (by omega))
          rw [storeIn_cons _ _ _ _ written, List.length_cons, Nat.cast_succ,
            add_comm (written.length : Int) 1, ← add_assoc]
          exact hruns
        · rw [between_cons _ h.1, between_cons _ h.2, mergeBy_cons_of_not_le hcmp,
            ← between_cons _ h.1]
          rw [storeIn_tmpArray_array] at hmerge
          rw [hmerge]
          rfl

/-- The loop writes the slots from `pos` to `stop`. -/
theorem copyRest_runs {stop : Int} (hstop : stop < n) (arrays : Arrays α) (currPos pos : Int)
    (hpos : 0 ≤ pos) (hpos' : pos ≤ stop + 1) (hcurr : 0 ≤ currPos)
    (hcurr' : currPos + (stop + 1 - pos) ≤ n) :
    Runs (Event.Within n) (copyRest stop arrays currPos pos)
      (storeIn arrays .tmpArray currPos (between (arrays .array) pos stop),
        currPos + (stop + 1 - pos)) := by
  induction hk : (stop + 1 - pos).toNat generalizing arrays currPos pos with
  | zero =>
    rw [copyRest, dif_neg (by omega), between_of_lt _ (by omega), storeIn_nil,
      show currPos + (stop + 1 - pos) = currPos by omega]
    exact Runs.pure _
  | succ k ih =>
    rw [copyRest, dif_pos (by omega)]
    apply Runs.bind (copyFunc_runs (by omega) (by omega))
    apply Runs.bind (int_runs (by omega))
    apply Runs.bind (int_runs (by omega))
    have hrest := ih (storeIn arrays .tmpArray currPos [arrays .array pos]) (currPos + 1) (pos + 1)
      (by omega) (by omega) (by omega) (by omega) (by omega)
    rw [storeIn_tmpArray_array, ← storeIn_cons, ← between_cons _ (by omega),
      show currPos + 1 + (stop + 1 - (pos + 1)) = currPos + (stop + 1 - pos) by omega] at hrest
    exact hrest

/-- The loop copies the `numElements - index` slots up to `right` back, the last one first. -/
theorem copyBack_runs {numElements : Int} (hn : numElements ≤ n) (arrays : Arrays α)
    (index right : Int) (hindex : 0 ≤ index) (hindex' : index ≤ numElements) (hright : right < n)
    (hright' : numElements - index ≤ right + 1) :
    Runs (Event.Within n) (copyBack numElements arrays index right)
      (storeIn arrays .array (right + 1 - (numElements - index))
        (between (arrays .tmpArray) (right + 1 - (numElements - index)) right)) := by
  induction hk : (numElements - index).toNat generalizing arrays index right with
  | zero =>
    rw [copyBack, dif_neg (by omega), between_of_lt _ (by omega), storeIn_nil]
    exact Runs.pure _
  | succ k ih =>
    rw [copyBack, dif_pos (by omega)]
    apply Runs.bind (copyFunc_runs (by omega) (by omega))
    apply Runs.bind (int_runs (by omega))
    apply Runs.bind (int_runs (by omega))
    have hrest := ih (storeIn arrays .array right [arrays .tmpArray right]) (index + 1) (right - 1)
      (by omega) (by omega) (by omega) (by omega) (by omega)
    rw [storeIn_array_tmpArray, show right - 1 + 1 - (numElements - (index + 1)) =
      right + 1 - (numElements - index) by omega] at hrest
    rw [between_concat _ (by omega), storeIn_concat, length_between _ _ _ (by omega),
      show right + 1 - (numElements - index) + (right - 1 + 1 - (right + 1 - (numElements - index)))
        = right by omega]
    exact hrest

/-- Between `arrays` and `arrays'` only slots from `left` to `right` differ. -/
def SameOutside (left right : Int) (arrays arrays' : Arrays α) : Prop :=
  ∀ name i, i < left ∨ right < i → arrays' name i = arrays name i

theorem SameOutside.trans {left right : Int} {a b c : Arrays α} (hab : SameOutside left right a b)
    (hbc : SameOutside left right b c) : SameOutside left right a c := by
  intro name i hi
  rw [hbc name i hi, hab name i hi]

theorem SameOutside.mono {left right left' right' : Int} {a b : Arrays α}
    (h : SameOutside left right a b) (hl : left' ≤ left) (hr : right ≤ right') :
    SameOutside left' right' a b := fun name i hi => h name i (by omega)

theorem storeIn_sameOutside (arrays : Arrays α) (name : ArrayName) {left right : Int} {l : List α}
    (h : left + l.length ≤ right + 1) :
    SameOutside left right arrays (storeIn arrays name left l) :=
  fun other _ hi => storeIn_outside arrays name other (by omega)

/-- Merging leaves the merge of the two halves. -/
theorem stdMergeSortMergeArrays_runs (cmp : α → α → Int) {left mid right : Int} (hleft : 0 ≤ left)
    (hlm : left ≤ mid) (hmr : mid ≤ right + 1) (hright : right < n) (arrays : Arrays α) :
    ∃ arrays', Runs (Event.Within n) (stdMergeSortMergeArrays cmp arrays left mid right) arrays' ∧
      SameOutside left right arrays arrays' ∧
      between (arrays' .array) left right =
        mergeBy cmp (between (arrays .array) left (mid - 1))
          (between (arrays .array) mid right) := by
  obtain ⟨written, left', mid', hloop, h1, h2, h3, h4, hlen, hmerge⟩ :=
    mergeLoop_runs (n := n) cmp (show mid - 1 < n by omega) hright
      ⟨arrays, left, mid, left⟩ hleft (by dsimp only; omega) (by dsimp only; omega) hmr hleft
      (by dsimp only; omega)
  dsimp only at hloop h1 h3 hlen hmerge
  have hlefts := length_between (arrays .array) left' (mid - 1) (by omega)
  have hrights := length_between (arrays .array) mid' right (by omega)
  -- Where the third loop starts to write.
  have hstart : left + (written.length : Int) + (mid - 1 + 1 - left') =
      left + (written ++ between (arrays .array) left' (mid - 1)).length := by
    rw [List.length_append]
    push_cast
    omega
  have hsecond := copyRest_runs (n := n) (show mid - 1 < n by omega)
    (storeIn arrays .tmpArray left written) (left + written.length) left' (by omega) (by omega)
    (by omega) (by omega)
  rw [storeIn_tmpArray_array, ← storeIn_append, hstart] at hsecond
  have hthird := copyRest_runs hright
    (storeIn arrays .tmpArray left (written ++ between (arrays .array) left' (mid - 1)))
    (left + (written ++ between (arrays .array) left' (mid - 1)).length) mid' (by omega) (by omega)
    (by omega) (by omega)
  rw [storeIn_tmpArray_array, ← storeIn_append, ← hmerge] at hthird
  generalize hm : mergeBy cmp (between (arrays .array) left (mid - 1))
    (between (arrays .array) mid right) = merged at *
  have hmlen : (merged.length : Int) = right + 1 - left := by
    rw [hmerge]
    simp only [List.length_append]
    push_cast
    omega
  have hback := copyBack_runs (n := n) (show right - left + 1 ≤ n by omega)
    (storeIn arrays .tmpArray left merged) 0 right le_rfl (by omega) hright (by omega)
  rw [show right + 1 - (right - left + 1 - 0) = left by omega, storeIn_self,
    between_store _ hmlen] at hback
  refine ⟨storeIn (storeIn arrays .tmpArray left merged) .array left merged, ?_, ?_, ?_⟩
  · unfold stdMergeSortMergeArrays
    apply Runs.bind (int_runs (by omega))
    apply Runs.bind (int_runs (by omega))
    apply Runs.bind (int_runs (by omega))
    apply Runs.bind hloop
    apply Runs.bind hsecond
    apply Runs.bind hthird
    exact hback
  · exact (storeIn_sameOutside _ _ (by omega)).trans (storeIn_sameOutside _ _ (by omega))
  · rw [storeIn_self, between_store _ hmlen]

/-- The middle of a range with at least two slots. -/
theorem mid_bounds {left right : Int} (hleft : 0 ≤ left) (h : left < right) :
    left ≤ (right + left).tdiv 2 ∧ (right + left).tdiv 2 < right := by
  rw [Int.tdiv_eq_ediv_of_nonneg (by omega)]
  omega

/-- The slots from `left` to `right` are sorted stably, and no others change. -/
structure SortsRange (cmp : α → α → Int) (left right : Int) (arrays arrays' : Arrays α) :
    Prop where
  same : SameOutside left right arrays arrays'
  sorting : ∀ s, TotalPreorderOn cmp s → (∀ a ∈ between (arrays .array) left right, s a) →
    StableSorting cmp s (between (arrays .array) left right) (between (arrays' .array) left right)

/-- A range of at most one slot is sorted. -/
theorem SortsRange.refl {left right : Int} (h : right ≤ left) (arrays : Arrays α) :
    SortsRange cmp left right arrays arrays := by
  refine ⟨fun _ _ _ => rfl, fun s _ _ => ?_⟩
  rcases h.lt_or_eq with h | rfl
  · rw [between_of_lt _ h]
    exact .nil
  · rw [between_self]
    exact .singleton _

/-- Sorting both halves and merging them sorts the range. -/
theorem SortsRange.merge {left mid right : Int} {a b c d : Arrays α} (hlm : left ≤ mid)
    (hmr : mid < right) (hl : SortsRange cmp left mid a b) (hr : SortsRange cmp (mid + 1) right b c)
    (hsame : SameOutside left right c d)
    (hmerge : between (d .array) left right =
      mergeBy cmp (between (c .array) left mid) (between (c .array) (mid + 1) right)) :
    SortsRange cmp left right a d := by
  have hbleft : between (c .array) left mid = between (b .array) left mid :=
    between_congr fun i _ hi => hr.same .array i (by omega)
  have haright : between (b .array) (mid + 1) right = between (a .array) (mid + 1) right :=
    between_congr fun i hi _ => hl.same .array i (by omega)
  refine ⟨((hl.same.mono le_rfl (by omega)).trans (hr.same.mono (by omega) le_rfl)).trans hsame,
    fun s hs hmem => ?_⟩
  rw [between_append (a .array) mid (by omega) (by omega)] at hmem ⊢
  have hmemr : ∀ x ∈ between (a .array) (mid + 1) right, s x :=
    fun x hx => hmem x (List.mem_append_right _ hx)
  have hmeml : ∀ x ∈ between (a .array) left mid, s x :=
    fun x hx => hmem x (List.mem_append_left _ hx)
  have hsr := hr.sorting s hs (by rwa [haright])
  rw [haright] at hsr
  rw [hmerge, hbleft]
  exact .merge hs hmeml hmemr (hl.sorting s hs hmeml) hsr

/-- The recursion sorts its range. -/
theorem stdMergeSortDivideNSort_runs (cmp : α → α → Int) {fuel : Nat} {left right : Int}
    (hleft : 0 ≤ left) (hright : right < n) (hfuel : (right - left).toNat < fuel)
    (arrays : Arrays α) :
    ∃ arrays', Runs (Event.Within n) (stdMergeSortDivideNSort cmp fuel arrays left right) arrays' ∧
      SortsRange cmp left right arrays arrays' := by
  induction fuel generalizing left right arrays with
  | zero => omega
  | succ fuel ih =>
    rw [stdMergeSortDivideNSort]
    by_cases h : left < right
    case neg =>
      rw [if_neg h]
      exact ⟨arrays, Runs.pure _, .refl (by omega) arrays⟩
    case pos =>
      rw [if_pos h]
      obtain ⟨hlm, hmr⟩ := mid_bounds hleft h
      generalize (right + left).tdiv 2 = mid at hlm hmr ⊢
      obtain ⟨b, hb, hsb⟩ := ih hleft (show mid < n by omega) (by omega) arrays
      obtain ⟨c, hc, hsc⟩ := ih (show 0 ≤ mid + 1 by omega) hright (by omega) b
      obtain ⟨d, hd, hsame, hmerge⟩ := stdMergeSortMergeArrays_runs cmp
        hleft (show left ≤ mid + 1 by omega) (by omega) hright c
      rw [Int.add_sub_cancel] at hmerge
      refine ⟨d, ?_, .merge hlm hmr hsb hsc hsame hmerge⟩
      apply Runs.bind (int_runs (by omega))
      apply Runs.bind (int_runs (by omega))
      apply Runs.bind hb
      apply Runs.bind (int_runs (by omega))
      apply Runs.bind hc
      apply Runs.bind (int_runs (by omega))
      exact hd

/-- A run of the merge sort on `n` slots, for any comparison function. -/
theorem stdMergeSort_runs (cmp : α → α → Int) {fuel : Nat} (hn : 0 ≤ n) (hfuel : n.toNat < fuel)
    (arrays : Arrays α) :
    ∃ arrays', Runs (Event.Within n) (stdMergeSort cmp fuel arrays n) arrays' ∧
      SortsRange cmp 0 (n - 1) arrays arrays' := by
  obtain ⟨arrays', hruns, hsorts⟩ := stdMergeSortDivideNSort_runs cmp le_rfl
    (show n - 1 < n by omega) (show (n - 1 - 0).toNat < fuel by omega) arrays
  exact ⟨arrays', Runs.bind (int_runs (by omega)) hruns, hsorts⟩

/-- Only slots from `0` to `n - 1` are touched. -/
def Event.InSlots (n : Int) : Event → Prop
  | .int _ => True
  | .read _ index | .write _ index => 0 ≤ index ∧ index < n

/-- The value of an `int` expression is one of that type. -/
def Event.InInt : Event → Prop
  | .int value => -2 ^ 31 ≤ value ∧ value ≤ 2 ^ 31 - 1
  | .read _ _ | .write _ _ => True

theorem Event.Within.inSlots {e : Event} (h : e.Within n) : e.InSlots n := by
  cases e with
  | int _ => trivial
  | read _ _ => exact h
  | write _ _ => exact h

theorem Event.Within.inInt {e : Event} (hn : n ≤ 2 ^ 30 + 1) (h : e.Within n) : e.InInt := by
  cases e with
  | int value =>
    obtain ⟨hlow, hhigh⟩ := h
    exact ⟨by omega, by omega⟩
  | read _ _ => trivial
  | write _ _ => trivial

/-- Merge sort is a stable sort: for any number of elements whose index sums are in the range of an
`int`, any comparison that is a total preorder on the elements and any content of the work array. -/
theorem stdMergeSort_stable (cmp : α → α → Int) (n : Int) (hn : 0 ≤ n) (hsum : n ≤ 2 ^ 30 + 1)
    (arrays : Arrays α) (hcmp : TotalPreorderOn cmp (· ∈ between (arrays .array) 0 (n - 1)))
    (fuel : Nat) (hfuel : n.toNat < fuel) :
    ∃ arrays', (stdMergeSort cmp fuel arrays n).result = .ok arrays' ∧
      StableSorting cmp (· ∈ between (arrays .array) 0 (n - 1))
        (between (arrays .array) 0 (n - 1)) (between (arrays' .array) 0 (n - 1)) ∧
      Traced.All (Event.InSlots n) (stdMergeSort cmp fuel arrays n) ∧
      Traced.All Event.InInt (stdMergeSort cmp fuel arrays n) ∧
      ∀ name i, i < 0 ∨ n ≤ i → arrays' name i = arrays name i := by
  obtain ⟨arrays', hruns, hsorts⟩ := stdMergeSort_runs cmp hn hfuel arrays
  refine ⟨arrays', hruns.result, hsorts.sorting _ hcmp fun _ ha => ha, ?_, ?_, ?_⟩
  · exact fun e he => (hruns.all e he).inSlots
  · exact fun e he => (hruns.all e he).inInt hsum
  · exact fun name i hi => hsorts.same name i (by omega)

/-- Three pairs, compared by their first components. -/
def threePairs : Arrays (Int × Int)
  | .array, i => (i % 2, i)
  | .tmpArray, _ => (0, 0)

theorem threePairs_lawful (s : Int × Int → Prop) :
    TotalPreorderOn (fun a b => a.1 - b.1) s := by
  refine ⟨fun _ _ => ?_, fun _ _ _ hab hbc => ?_⟩ <;> omega

theorem stdMergeSort_stable_threePairs :
    ∃ arrays', (stdMergeSort (fun a b => a.1 - b.1) 4 threePairs 3).result = .ok arrays' ∧
      StableSorting (fun a b : Int × Int => a.1 - b.1)
        (· ∈ between (threePairs .array) 0 (3 - 1))
        (between (threePairs .array) 0 (3 - 1)) (between (arrays' .array) 0 (3 - 1)) ∧
      Traced.All (Event.InSlots 3) (stdMergeSort (fun a b => a.1 - b.1) 4 threePairs 3) ∧
      Traced.All Event.InInt (stdMergeSort (fun a b => a.1 - b.1) 4 threePairs 3) ∧
      ∀ name i, i < 0 ∨ 3 ≤ i → arrays' name i = threePairs name i :=
  stdMergeSort_stable _ 3 (by decide) (by decide) threePairs (threePairs_lawful _) 4 (by decide)

end OpxCommonUtils.Sort
