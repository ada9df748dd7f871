import Mathlib.Order.Defs.LinearOrder
import Mathlib.Tactic.Common

/-!
# The first and the last hit in a range

What a search for an index answers in the C manner: the index as a number, or `-1`. A search that
looks further than it should is right exactly if nothing it finds there comes before its own hits.
-/

namespace OpxCommonUtils

variable {p : Nat → Prop} {lo hi : Nat} {r : Int}

/-- `r` is the least index from `lo` on and below `hi` with `p`, or `-1` if there is none. -/
def FirstIn (p : Nat → Prop) (lo hi : Nat) (r : Int) : Prop :=
  (∃ i : Nat, r = i ∧ lo ≤ i ∧ i < hi ∧ p i ∧ ∀ j, lo ≤ j → j < i → ¬ p j) ∨
    (r = -1 ∧ ∀ j, lo ≤ j → j < hi → ¬ p j)

/-- `r` is the greatest index below `hi` with `p`, or `-1` if there is none. -/
def LastIn (p : Nat → Prop) (hi : Nat) (r : Int) : Prop :=
  (∃ i : Nat, r = i ∧ i < hi ∧ p i ∧ ∀ j, i < j → j < hi → ¬ p j) ∨
    (r = -1 ∧ ∀ j, j < hi → ¬ p j)

theorem FirstIn.none (h : ∀ j, lo ≤ j → j < hi → ¬ p j) : FirstIn p lo hi (-1) := .inr ⟨rfl, h⟩

theorem FirstIn.empty (h : hi ≤ lo) : FirstIn p lo hi (-1) := .none fun _ _ _ => by omega

/-- A search may begin later when nothing is skipped. -/
theorem FirstIn.skip {mid : Nat} (h : FirstIn p mid hi r) (hmid : lo ≤ mid)
    (hskip : ∀ j, lo ≤ j → j < mid → ¬ p j) : FirstIn p lo hi r := by
  rcases h with ⟨i, rfl, h1, h2, h3, h4⟩ | ⟨rfl, h⟩
  · refine .inl ⟨i, rfl, by omega, h2, h3, fun j hj hji => ?_⟩
    rcases Nat.lt_or_ge j mid with hm | hm
    · exact hskip j hj hm
    · exact h4 j hm hji
  · refine .none fun j hj hjh => ?_
    rcases Nat.lt_or_ge j mid with hm | hm
    · exact hskip j hj hm
    · exact h j hm hjh

/-- A search that goes on behind the end `len` is right if and only if there is a hit before `len`
or none behind it. -/
theorem FirstIn.cut_iff {len : Nat} (h : FirstIn p lo hi r) (hlo : lo ≤ len) (hlen : len ≤ hi) :
    FirstIn p lo len r ↔
      (∃ i, lo ≤ i ∧ i < len ∧ p i) ∨ ∀ i, len ≤ i → i < hi → ¬ p i := by
  rcases h with ⟨i, rfl, h1, h2, h3, h4⟩ | ⟨rfl, h⟩
  · constructor
    · rintro (⟨k, hk, hk1, hk2, hk3, -⟩ | ⟨hr, -⟩)
      · exact .inl ⟨k, hk1, hk2, hk3⟩
      · omega
    · rintro (⟨k, hk1, hk2, hk3⟩ | hnone)
      · -- The hit is not behind `k`.
        have hik : i ≤ k := by
          by_contra hik
          exact h4 k hk1 (by omega) hk3
        exact .inl ⟨i, rfl, h1, by omega, h3, h4⟩
      · rcases Nat.lt_or_ge i len with hil | hil
        · exact .inl ⟨i, rfl, h1, hil, h3, h4⟩
        · exact absurd h3 (hnone i hil h2)
  · constructor
    · intro _
      exact .inr fun i hi hih => h i (by omega) hih
    · intro _
      exact .none fun j hj hjl => h j hj (by omega)

theorem LastIn.none (h : ∀ j, j < hi → ¬ p j) : LastIn p hi (-1) := .inr ⟨rfl, h⟩

/-- A search downwards may begin lower when nothing is skipped. -/
theorem LastIn.skip {mid : Nat} (h : LastIn p mid r) (hmid : mid ≤ hi)
    (hskip : ∀ j, mid ≤ j → j < hi → ¬ p j) : LastIn p hi r := by
  rcases h with ⟨i, rfl, h1, h2, h3⟩ | ⟨rfl, h⟩
  · refine .inl ⟨i, rfl, by omega, h2, fun j hj hjh => ?_⟩
    rcases Nat.lt_or_ge j mid with hm | hm
    · exact h3 j hj hm
    · exact hskip j hm hjh
  · refine .none fun j hjh => ?_
    rcases Nat.lt_or_ge j mid with hm | hm
    · exact h j hm
    · exact hskip j hm hjh

/-- A search downwards that begins above the end `len` is right if and only if there is no hit
above it. -/
theorem LastIn.cut_iff {len : Nat} (h : LastIn p hi r) (hlen : len ≤ hi) :
    LastIn p len r ↔ ∀ i, len ≤ i → i < hi → ¬ p i := by
  rcases h with ⟨i, rfl, h1, h2, h3⟩ | ⟨rfl, h⟩
  · constructor
    · rintro (⟨k, hk, hk1, -, -⟩ | ⟨hr, -⟩)
      · exact fun j hj hjh => h3 j (by omega) hjh
      · omega
    · intro hnone
      rcases Nat.lt_or_ge i len with hil | hil
      · exact .inl ⟨i, rfl, hil, h2, fun j hj hjl => h3 j hj (by omega)⟩
      · exact absurd h2 (hnone i hil h1)
  · constructor
    · exact fun _ i _ hih => h i hih
    · exact fun _ => .none fun j hjl => h j (by omega)

end OpxCommonUtils
