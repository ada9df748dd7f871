import Mathlib.Data.List.DropRight

/-!
# Trimming a list at its ends

`rdropWhile` and `dropWhile` leave the longest prefix and the longest suffix whose outer end is
kept, and they commute.
-/

namespace OpxCommonUtils

variable {α : Type} {p : α → Bool} {s t : List α}

/-- `t` is the longest prefix of `s` that does not end in a matched element. -/
def LongestPrefix (p : α → Bool) (s t : List α) : Prop :=
  t <+: s ∧ (∀ c, t.getLast? = some c → ¬ p c) ∧
    ∀ u, u <+: s → (∀ c, u.getLast? = some c → ¬ p c) → u.length ≤ t.length

/-- `t` is the longest suffix of `s` that does not begin with a matched element. -/
def LongestSuffix (p : α → Bool) (s t : List α) : Prop :=
  t <:+ s ∧ (∀ c, t.head? = some c → ¬ p c) ∧
    ∀ u, u <:+ s → (∀ c, u.head? = some c → ¬ p c) → u.length ≤ t.length

theorem longestSuffix_dropWhile (p : α → Bool) (s : List α) :
    LongestSuffix p s (s.dropWhile p) := by
  refine ⟨List.dropWhile_suffix _, fun c hc => ?_, fun u hu hkept => ?_⟩
  · have hne : s.dropWhile p ≠ [] := by
      intro hnil
      rw [hnil] at hc
      cases hc
    rw [List.head?_eq_some_head hne] at hc
    obtain rfl := Option.some.inj hc
    simpa using List.head_dropWhile_not p hne
  · -- a longer one would begin within what is dropped
    by_contra hlt
    rw [Nat.not_le] at hlt
    obtain ⟨v, hv⟩ := List.suffix_of_suffix_length_le (List.dropWhile_suffix p) hu hlt.le
    obtain ⟨w, hw⟩ := hu
    have hsplit : w ++ v = s.takeWhile p := by
      have heq : w ++ v ++ s.dropWhile p = s.takeWhile p ++ s.dropWhile p := by
        rw [List.append_assoc, hv, hw, List.takeWhile_append_dropWhile]
      exact List.append_cancel_right heq
    cases v with
    | nil =>
      rw [← hv] at hlt
      simp at hlt
    | cons c v =>
      have hc : c ∈ s.takeWhile p := hsplit ▸ List.mem_append_right w List.mem_cons_self
      exact hkept c (by rw [← hv]; rfl) (List.mem_takeWhile_imp hc)

theorem longestPrefix_reverse : LongestPrefix p s t ↔ LongestSuffix p s.reverse t.reverse := by
  have hsuffix : ∀ (u : List α), u <:+ s.reverse ↔ u.reverse <+: s := by
    intro u
    rw [← List.reverse_suffix, List.reverse_reverse]
  have hlen : ∀ (u : List α), u.reverse.length = u.length := fun u => List.length_reverse
  simp only [LongestPrefix, LongestSuffix, List.reverse_suffix, List.head?_reverse,
    List.length_reverse]
  refine and_congr_right fun _ => and_congr_right fun _ => ?_
  constructor
  · intro h u hu hkept
    rw [← hlen u]
    exact h _ ((hsuffix u).mp hu) (by simpa using hkept)
  · intro h u hu hkept
    rw [← hlen u]
    exact h _ ((hsuffix _).mpr (by simpa using hu)) (by simpa using hkept)

theorem longestPrefix_rdropWhile (p : α → Bool) (s : List α) :
    LongestPrefix p s (s.rdropWhile p) := by
  rw [longestPrefix_reverse, List.rdropWhile, List.reverse_reverse]
  exact longestSuffix_dropWhile p s.reverse

theorem LongestPrefix.eq (h : LongestPrefix p s t) : t = s.rdropWhile p := by
  have hr := longestPrefix_rdropWhile p s
  have hlen := le_antisymm (hr.2.2 t h.1 h.2.1) (h.2.2 _ hr.1 hr.2.1)
  exact (List.prefix_of_prefix_length_le h.1 hr.1 hlen.le).eq_of_length hlen

theorem LongestSuffix.eq (h : LongestSuffix p s t) : t = s.dropWhile p := by
  have hd := longestSuffix_dropWhile p s
  have hlen := le_antisymm (hd.2.2 t h.1 h.2.1) (h.2.2 _ hd.1 hd.2.1)
  exact (List.suffix_of_suffix_length_le h.1 hd.1 hlen.le).eq_of_length hlen

theorem rdropWhile_cons (p : α → Bool) (x : α) (u : List α) :
    (x :: u).rdropWhile p =
      if u.rdropWhile p = [] then [x].rdropWhile p else x :: u.rdropWhile p := by
  induction u using List.reverseRecOn with
  | nil => rfl
  | append_singleton u c ih =>
    rw [← List.cons_append]
    by_cases hc : p c
    · rw [List.rdropWhile_concat_pos _ _ _ hc, List.rdropWhile_concat_pos _ _ _ hc, ih]
    · rw [List.rdropWhile_concat_neg _ _ _ hc, List.rdropWhile_concat_neg _ _ _ hc,
        if_neg (by simp), List.cons_append]

theorem dropWhile_rdropWhile_comm (p : α → Bool) (s : List α) :
    (s.rdropWhile p).dropWhile p = (s.dropWhile p).rdropWhile p := by
  induction s using List.reverseRecOn with
  | nil => rfl
  | append_singleton s x ih =>
    rw [List.dropWhile_append]
    by_cases hx : p x
    · rw [List.rdropWhile_concat_pos _ _ _ hx, ih]
      split
      · next hnil =>
        rw [List.isEmpty_iff.mp hnil, List.dropWhile_cons_of_pos hx]
        rfl
      · rw [List.rdropWhile_concat_pos _ _ _ hx]
    · rw [List.rdropWhile_concat_neg _ _ _ hx, List.dropWhile_append]
      split
      · rw [List.dropWhile_cons_of_neg hx, List.rdropWhile_singleton, if_neg hx]
      · rw [List.rdropWhile_concat_neg _ _ _ hx]

end OpxCommonUtils
