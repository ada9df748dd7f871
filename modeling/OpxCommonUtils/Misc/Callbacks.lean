import Mathlib.Data.List.Basic
import Mathlib.Tactic.Ring

/-!
# Calls of a callback

A walk hands elements to a callback one after the other, until they end or the callback returns
something else than 0. What the callback returns may depend on the calls made so far.
-/

namespace OpxCommonUtils

variable {α : Type} {walkFn : List α → α → Int} {done xs rest : List α}

/-- The calls of a callback that gets elements one after the other until it returns something else
than 0. -/
def callsOf (walkFn : List α → α → Int) : List α → List α → List α
  | done, [] => done
  | done, x :: xs =>
    if walkFn done x ≠ 0 then done ++ [x] else callsOf walkFn (done ++ [x]) xs

/-- The callback returns 0 for all of `xs`. -/
def Goes (walkFn : List α → α → Int) (done xs : List α) : Prop :=
  ∀ before x after, xs = before ++ x :: after → walkFn (done ++ before) x = 0

/-- The callback returns something else than 0 within its first `n` calls for `xs`. -/
def StopsWithin (walkFn : List α → α → Int) (n : Nat) (xs : List α) : Prop :=
  ∃ before x after, xs = before ++ x :: after ∧ before.length < n ∧ walkFn before x ≠ 0

theorem callsOf_append (h : Goes walkFn done xs) :
    callsOf walkFn done (xs ++ rest) = callsOf walkFn (done ++ xs) rest := by
  induction xs generalizing done with
  | nil => simp
  | cons x xs ih =>
    have hret : walkFn done x = 0 := by simpa using h [] x xs rfl
    have hrest : Goes walkFn (done ++ [x]) xs := by
      intro before r after heq
      simpa using h (x :: before) r after (by simp [heq])
    rw [List.cons_append, callsOf, if_neg (by simp [hret]), ih hrest, List.append_assoc,
      List.singleton_append]

theorem goes_or_stops (walkFn : List α → α → Int) (done xs : List α) :
    Goes walkFn done xs ∨ ∃ before x after, xs = before ++ x :: after ∧
      Goes walkFn done before ∧ walkFn (done ++ before) x ≠ 0 := by
  induction xs generalizing done with
  | nil =>
    left
    intro before x after heq
    simp at heq
  | cons x xs ih =>
    by_cases hret : walkFn done x = 0
    · have hcons : ∀ {xs : List α}, Goes walkFn (done ++ [x]) xs →
          Goes walkFn done (x :: xs) := by
        intro xs hxs before r after heq
        cases before with
        | nil =>
          obtain ⟨rfl, rfl⟩ := List.cons.inj heq
          simpa using hret
        | cons b before =>
          obtain ⟨rfl, rfl⟩ := List.cons.inj heq
          simpa using hxs before r after rfl
      rcases ih (done ++ [x]) with hgoes | ⟨before, r, after, rfl, hgoes, hstop⟩
      · exact .inl (hcons hgoes)
      · exact .inr ⟨x :: before, r, after, rfl, hcons hgoes, by simpa using hstop⟩
    · refine .inr ⟨[], x, xs, rfl, ?_, by simpa using hret⟩
      intro before r after heq
      simp at heq

theorem length_lt_callsOf (done : List α) (x : α) (xs : List α) :
    done.length < (callsOf walkFn done (x :: xs)).length := by
  induction xs generalizing done x with
  | nil =>
    rw [callsOf, callsOf]
    split_ifs <;> simp
  | cons r xs ih =>
    rw [callsOf]
    split_ifs
    · simp
    · have := ih (done ++ [x]) r
      rw [List.length_append, List.length_singleton] at this
      omega

/-- The first `n` elements get the same calls as all of them if there are no more, or the callback
stops before. -/
theorem callsOf_take_iff (n : Nat) (xs : List α) :
    callsOf walkFn [] (xs.take n) = callsOf walkFn [] xs ↔
      xs.length ≤ n ∨ StopsWithin walkFn n xs := by
  have hsplit := List.take_append_drop n xs
  rcases goes_or_stops walkFn [] (xs.take n) with hgoes | ⟨before, x, after, heq, hgoes, hstop⟩
  · have hshort : callsOf walkFn [] (xs.take n) = xs.take n := by
      have hall : callsOf walkFn [] (xs.take n ++ []) = callsOf walkFn ([] ++ xs.take n) [] :=
        callsOf_append hgoes
      rw [List.append_nil] at hall
      rw [hall, callsOf, List.nil_append]
    have hlong : callsOf walkFn [] xs = callsOf walkFn (xs.take n) (xs.drop n) := by
      conv_lhs => rw [← hsplit]
      rw [callsOf_append hgoes, List.nil_append]
    rw [hshort, hlong]
    constructor
    · intro hsame
      left
      by_contra hmore
      obtain ⟨r, rs, hdrop⟩ := List.exists_cons_of_length_pos
        (l := xs.drop n) (by rw [List.length_drop]; omega)
      have hlt : (xs.take n).length < (callsOf walkFn (xs.take n) (r :: rs)).length :=
        length_lt_callsOf _ r rs
      rw [hdrop] at hsame
      rw [← hsame] at hlt
      exact lt_irrefl _ hlt
    · intro hcond
      rcases hcond with hle | ⟨before, x, after, heq, hlt, hstop⟩
      · rw [List.drop_of_length_le hle, callsOf]
      · -- the element at which the callback stops is among the first `n`
        have htake : xs.take n = before ++ x :: after.take (n - before.length - 1) := by
          obtain ⟨m, rfl⟩ : ∃ m, n = before.length + (m + 1) :=
            ⟨n - before.length - 1, by omega⟩
          rw [heq, List.take_length_add_append, List.take_succ_cons]
          simp
        exact absurd (hgoes before x _ htake) (by simpa using hstop)
  · have hlt : before.length < n := by
      have hlen := congrArg List.length heq
      rw [List.length_take, List.length_append, List.length_cons] at hlen
      omega
    have hwhole : xs = before ++ x :: (after ++ xs.drop n) := by
      rw [← List.cons_append, ← List.append_assoc, ← heq, hsplit]
    have hcalls : ∀ xs, callsOf walkFn [] (before ++ x :: xs) = before ++ [x] := by
      intro xs
      rw [callsOf_append hgoes, callsOf, if_pos hstop, List.nil_append]
    refine iff_of_true ?_ (.inr ⟨before, x, _, hwhole, hlt, by simpa using hstop⟩)
    rw [heq, hcalls]
    conv_rhs => rw [hwhole, hcalls]

/-- A callback that returns 0 gets all elements. -/
theorem callsOf_zero (done xs : List α) :
    callsOf (fun _ _ => 0) done xs = done ++ xs := by
  induction xs generalizing done with
  | nil => simp [callsOf]
  | cons x xs ih =>
    rw [callsOf, if_neg (by simp), ih, List.append_assoc, List.singleton_append]

/-- The first `k` counts together. -/
def total (counts : Nat → Int) : Nat → Nat
  | 0 => 0
  | k + 1 => total counts k + (counts k).toNat

/-- The counts are positive numbers of type `int`. -/
def Positive (counts : Nat → Int) : Prop := ∀ k, 0 < counts k ∧ counts k < 2 ^ 31

theorem total_mono (counts : Nat → Int) {j k : Nat} (h : j ≤ k) :
    total counts j ≤ total counts k := by
  induction h with
  | refl => exact le_refl _
  | step _ ih =>
    rw [total]
    omega

end OpxCommonUtils
