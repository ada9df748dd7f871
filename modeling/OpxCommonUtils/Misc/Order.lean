import Mathlib.Data.Finset.Sort
import Mathlib.Order.Basic
import Mathlib.Tactic.Linarith

/-!
# Comparators and iteration in order

A comparator answers with a negative number, zero or a positive number, as `strcmp` does.
`TotalPreorder` says that the answers are those of a total preorder: distinct elements may
compare equal.
-/

namespace OpxCommonUtils

/-- The elements of a `std::set<int>` in the order of its iterators. -/
def ascending (s : Finset Int) : List Int := s.sort (· ≤ ·)

theorem mem_ascending {s : Finset Int} {a : Int} : a ∈ ascending s ↔ a ∈ s := Finset.mem_sort _

theorem ascending_nodup (s : Finset Int) : (ascending s).Nodup := s.sort_nodup _

theorem ascending_toFinset (s : Finset Int) : (ascending s).toFinset = s := s.sort_toFinset _

theorem ascending_empty : ascending ∅ = [] := Finset.sort_empty _

/-- The comparator orders its arguments by a total preorder. -/
structure TotalPreorder {α : Type} (cmp : α → α → Int) : Prop where
  swap : ∀ a b, cmp a b < 0 ↔ 0 < cmp b a
  trans : ∀ a b c, cmp a b ≤ 0 → cmp b c ≤ 0 → cmp a c ≤ 0

namespace TotalPreorder

variable {α : Type} {cmp : α → α → Int}

theorem refl (h : TotalPreorder cmp) (a : α) : cmp a a = 0 := by
  have hs := h.swap a a
  omega

theorem eq_comm (h : TotalPreorder cmp) {a b : α} : cmp a b = 0 ↔ cmp b a = 0 := by
  have hab := h.swap a b
  have hba := h.swap b a
  omega

theorem not_lt (h : TotalPreorder cmp) {a b : α} : ¬ cmp a b < 0 ↔ cmp b a ≤ 0 := by
  have hab := h.swap a b
  omega

theorem lt_of_lt_of_le (h : TotalPreorder cmp) {a b c : α} (hab : cmp a b < 0)
    (hbc : cmp b c ≤ 0) : cmp a c < 0 := by
  by_contra hac
  have hba := h.trans b c a hbc (h.not_lt.mp hac)
  have hs := h.swap a b
  omega

theorem lt_of_le_of_lt (h : TotalPreorder cmp) {a b c : α} (hab : cmp a b ≤ 0)
    (hbc : cmp b c < 0) : cmp a c < 0 := by
  by_contra hac
  have hcb := h.trans c a b (h.not_lt.mp hac) hab
  have hs := h.swap b c
  omega

/-- Elements that compare equal compare alike with any other. -/
theorem lt_congr (h : TotalPreorder cmp) {a b : α} (hab : cmp a b = 0) (x : α) :
    cmp a x < 0 ↔ cmp b x < 0 :=
  ⟨h.lt_of_le_of_lt (h.eq_comm.mp hab).le, h.lt_of_le_of_lt hab.le⟩

theorem eq_congr (h : TotalPreorder cmp) {a b : α} (hab : cmp a b = 0) (x : α) :
    cmp a x = 0 ↔ cmp b x = 0 := by
  have hlt := h.lt_congr hab x
  have hgt : cmp x a < 0 ↔ cmp x b < 0 :=
    ⟨fun hx => h.lt_of_lt_of_le hx hab.le, fun hx => h.lt_of_lt_of_le hx (h.eq_comm.mp hab).le⟩
  have hax := h.swap x a
  have hbx := h.swap x b
  omega

end TotalPreorder

end OpxCommonUtils
