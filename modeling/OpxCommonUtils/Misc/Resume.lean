import OpxCommonUtils.Misc.Callbacks
import OpxCommonUtils.Misc.Heap

/-!
# Resumed walks

A walk over a sequence makes a number of calls and hands back the place from which its user may
resume it. `CallEnds` says how one such walk ends, and whether the element of its last call is a good
one to end with: only then the next walk goes on right behind it. The resumed walks together come to
all elements exactly if every walk ends with a good element (`resume_iff`).
-/

namespace OpxCommonUtils

variable {α : Type}

/-- The user resumes a walk from the place it handed back until that is `NULL`: all calls. The
`k`-th walk, from the place `p`, is `walk k p`. -/
def resume (walk : Nat → Ptr → Exec (Ptr × List α)) : Nat → Nat → Ptr → Exec (List α)
  | 0, _, _ => .error .diverges
  | fuel + 1, k, p => do
    let (next, calls) ← walk k p
    if next = NULL then return calls
    else do
      let more ← resume walk fuel (k + 1) next
      return calls ++ more

/-- More fuel does not change what resumed walks come to. -/
theorem resume_succ (walk : Nat → Ptr → Exec (Ptr × List α)) : ∀ {fuel k : Nat} {p : Ptr}
    {xs : List α}, resume walk fuel k p = .ok xs → resume walk (fuel + 1) k p = .ok xs := by
  intro fuel
  induction fuel with
  | zero =>
    intro k p xs hrun
    cases hrun
  | succ fuel ih =>
    intro k p xs hrun
    rw [resume] at hrun
    obtain ⟨⟨next, calls⟩, hwalk, hrun⟩ := exec_bind_eq_ok.mp hrun
    dsimp only at hrun
    rw [resume, hwalk, exec_bind_ok]
    dsimp only
    by_cases h0 : next = NULL
    · rwa [if_pos h0] at hrun ⊢
    · rw [if_neg h0] at hrun ⊢
      obtain ⟨more, hmore, hcalls⟩ := exec_bind_eq_ok.mp hrun
      rw [ih hmore, exec_bind_ok]
      exact hcalls

/-- Resumed walks come to one sequence of elements only. -/
theorem resume_unique {walk : Nat → Ptr → Exec (Ptr × List α)} {m n k : Nat} {p : Ptr}
    {xs ys : List α} (hxs : resume walk m k p = .ok xs) (hys : resume walk n k p = .ok ys) :
    xs = ys := by
  have hmono : ∀ {fuel : Nat} {zs : List α}, resume walk fuel k p = .ok zs →
      ∀ more, resume walk (fuel + more) k p = .ok zs := by
    intro fuel zs hzs more
    induction more with
    | zero => exact hzs
    | succ more ih => exact resume_succ walk ih
  have hleft := hmono hxs n
  rw [Nat.add_comm, hmono hys m] at hleft
  exact (Except.ok.inj hleft).symm

/-- How a walk with `n` calls to make ends that has the elements `xs` to come to: what it hands back
and its calls. From the place `p` the elements `xs` are to come if `source p xs`. -/
inductive CallEnds (good : α → Prop) (source : Ptr → List α → Prop) (n : Nat) :
    List α → Ptr → List α → Prop
  | all {xs : List α} : xs.length < n → CallEnds good source n xs NULL xs
  | next {before after : List α} {last : α} {p : Ptr} : before.length + 1 = n → good last →
      p ≠ NULL → source p after →
      CallEnds good source n (before ++ last :: after) p (before ++ [last])
  | short {before after : List α} {last : α} {p : Ptr} : before.length + 1 = n → ¬ good last →
      after ≠ [] → (p ≠ NULL → ∃ xs, source p xs ∧ xs.length < after.length) →
      CallEnds good source n (before ++ last :: after) p (before ++ [last])

/-- The element of the last call of a walk that ends within the sequence. -/
theorem getElem?_last {all done before after : List α} {last : α} {counts : Nat → Int} {k : Nat}
    (hsplit : all = done ++ (before ++ last :: after)) (hdone : done.length = total counts k)
    (hlen : before.length + 1 = (counts k).toNat) :
    all[total counts (k + 1) - 1]? = some last := by
  have hindex : total counts (k + 1) - 1 = done.length + before.length := by
    rw [total]
    omega
  rw [hsplit, hindex, List.getElem?_append_right (Nat.le_add_right _ _), Nat.add_sub_cancel_left,
    List.getElem?_append_right (le_refl _), Nat.sub_self, List.getElem?_cons_zero]

section

variable {good : α → Prop} {source : Ptr → List α → Prop} {counts : Nat → Int}
  {walk : Nat → Ptr → Exec (Ptr × List α)}
  (hcall : ∀ k p xs, source p xs → ∃ next calls, walk k p = .ok (next, calls) ∧
    CallEnds good source (counts k).toNat xs next calls)

include hcall

/-- Resumed walks never make more calls than there are elements to come. -/
theorem length_resume_le : ∀ {fuel k : Nat} {p : Ptr} {xs calls : List α}, source p xs →
    resume walk fuel k p = .ok calls → calls.length ≤ xs.length := by
  intro fuel
  induction fuel with
  | zero =>
    intro k p xs calls _ hrun
    cases hrun
  | succ fuel ih =>
    intro k p xs calls hsource hrun
    obtain ⟨next, first, hwalk, hends⟩ := hcall k p xs hsource
    rw [resume, hwalk, exec_bind_ok] at hrun
    dsimp only at hrun
    cases hends with
    | all hlt =>
      rw [if_pos rfl] at hrun
      cases hrun
      exact le_refl _
    | next hlen hgood hne hnext =>
      rw [if_neg hne] at hrun
      obtain ⟨more, hmore, hcalls⟩ := exec_bind_eq_ok.mp hrun
      cases hcalls
      have hle := ih hnext hmore
      simp only [List.length_append, List.length_cons, List.length_nil]
      omega
    | short hlen hbad hmore hnext =>
      by_cases h0 : next = NULL
      · rw [if_pos h0] at hrun
        cases hrun
        simp
      · rw [if_neg h0] at hrun
        obtain ⟨more, hrest, hcalls⟩ := exec_bind_eq_ok.mp hrun
        cases hcalls
        obtain ⟨ys, hys, hlt⟩ := hnext h0
        have hle := ih hys hrest
        simp only [List.length_append, List.length_cons, List.length_nil]
        omega

/-- If they come to all elements, all of them end with a good one. -/
theorem good_of_resume {all : List α} : ∀ {fuel k : Nat} {p : Ptr} {xs : List α}
    (done : List α) {calls : List α}, source p xs → all = done ++ xs → done.length = total counts k →
      resume walk fuel k p = .ok calls → xs.length ≤ calls.length →
      ∀ j, k ≤ j → ∀ last, all[total counts (j + 1) - 1]? = some last → good last := by
  intro fuel
  induction fuel with
  | zero =>
    intro k p xs done calls _ _ _ hrun
    cases hrun
  | succ fuel ih =>
    intro k p xs done calls hsource hsplit hdone hrun hall j hj last hget
    obtain ⟨next, first, hwalk, hends⟩ := hcall k p xs hsource
    rw [resume, hwalk, exec_bind_ok] at hrun
    dsimp only at hrun
    cases hends with
    | all hlt =>
      -- no element is left at which another walk could end
      have hindex := (List.getElem?_eq_some_iff.mp hget).1
      have hmono := total_mono counts (Nat.add_le_add_right hj 1)
      rw [hsplit, List.length_append] at hindex
      rw [total] at hmono
      omega
    | next hlen hgood hne hnext =>
      rename_i before after x
      rw [if_neg hne] at hrun
      obtain ⟨more, hmore, hcalls⟩ := exec_bind_eq_ok.mp hrun
      cases hcalls
      rcases Nat.lt_or_eq_of_le hj with hlt | rfl
      · refine ih (done ++ (before ++ [x])) hnext ?_ ?_ hmore ?_ j hlt last hget
        · rw [hsplit]
          simp
        · rw [total]
          simp
          omega
        · simp only [List.length_append, List.length_cons, List.length_nil] at hall
          omega
      · rw [getElem?_last hsplit hdone hlen] at hget
        exact Option.some.inj hget ▸ hgood
    | short hlen hbad hmore hnext =>
      exfalso
      have hpos := List.length_pos_of_ne_nil hmore
      by_cases h0 : next = NULL
      · rw [if_pos h0] at hrun
        cases hrun
        simp only [List.length_append, List.length_cons, List.length_nil] at hall
        omega
      · rw [if_neg h0] at hrun
        obtain ⟨more, hrest, hcalls⟩ := exec_bind_eq_ok.mp hrun
        cases hcalls
        obtain ⟨ys, hys, hlt⟩ := hnext h0
        have hle := length_resume_le hcall hys hrest
        simp only [List.length_append, List.length_cons, List.length_nil] at hall
        omega

/-- If all of them end with a good element, they come to all elements. -/
theorem resume_of_good {all : List α}
    (hgood : ∀ j last, all[total counts (j + 1) - 1]? = some last → good last) (n : Nat) :
    ∀ {k : Nat} {p : Ptr} {xs : List α} (done : List α), xs.length ≤ n → source p xs →
      all = done ++ xs → done.length = total counts k → ∃ fuel, resume walk fuel k p = .ok xs := by
  induction n with
  | zero =>
    intro k p xs done hn hsource hsplit hdone
    obtain ⟨next, first, hwalk, hends⟩ := hcall k p xs hsource
    refine ⟨1, ?_⟩
    rw [resume, hwalk, exec_bind_ok]
    cases hends with
    | all hlt => rfl
    | next hlen hgood' hne hnext => simp at hn
    | short hlen hbad hmore hnext => simp at hn
  | succ n ih =>
    intro k p xs done hn hsource hsplit hdone
    obtain ⟨next, first, hwalk, hends⟩ := hcall k p xs hsource
    cases hends with
    | all hlt =>
      refine ⟨1, ?_⟩
      rw [resume, hwalk, exec_bind_ok]
      rfl
    | next hlen hgood' hne hnext =>
      rename_i before after x
      rw [List.length_append, List.length_cons] at hn
      obtain ⟨fuel, hrest⟩ := ih (done ++ (before ++ [x])) (k := k + 1) (by omega) hnext
        (by rw [hsplit]; simp) (by rw [total]; simp; omega)
      refine ⟨fuel + 1, ?_⟩
      rw [resume, hwalk, exec_bind_ok]
      dsimp only
      rw [if_neg hne, hrest, exec_bind_ok]
      simp
    | short hlen hbad hmore hnext =>
      -- the walk ends with a bad element
      exact absurd (hgood k _ (getElem?_last hsplit hdone hlen)) hbad

/-- The resumed walks come to all elements exactly if each of them ends with a good one. -/
theorem resume_iff {p : Ptr} {xs : List α} (hsource : source p xs) :
    (∃ fuel, resume walk fuel 0 p = .ok xs) ↔
      ∀ k last, xs[total counts (k + 1) - 1]? = some last → good last := by
  constructor
  · rintro ⟨fuel, hrun⟩ k
    exact good_of_resume hcall [] hsource rfl rfl hrun (le_refl _) k (Nat.zero_le k)
  · intro hgood
    exact resume_of_good hcall hgood xs.length [] (le_refl _) hsource rfl rfl

end

end OpxCommonUtils
