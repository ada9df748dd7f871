import OpxCommonUtils.Misc.LinkTree
import Mathlib.Analysis.SpecialFunctions.Log.Base
import Mathlib.Tactic.Linarith

/-!
# Red-black trees

`Balanced t n` says that `t` is a red-black tree, up to the colour of its root, with `n` black
cells on every path. `CtxBalanced k n c` says that a tree of height `n` whose root has colour `k`
can be put into the hole of `c`; with `k` black it is the state of a rebalancing loop, which has
a red root or a missing black cell in the hole and moves the hole up. `Balanced.paths` gives the
usual conditions on the paths of the tree, and `Balanced.length_le` their length.
-/

namespace OpxCommonUtils

/-- The colour of a cell. -/
inductive Color where
  | black
  | red
  deriving DecidableEq, Repr

/-- Payloads that have a colour. -/
class Colored (β : Type) where
  color : β → Color

namespace RedBlack

open Tree

variable {β : Type} [Colored β]

/-- The number of black cells a cell counts for. -/
def weight (v : β) : Nat :=
  match Colored.color v with
  | .black => 1
  | .red => 0

theorem weight_black {v : β} (h : Colored.color v = .black) : weight v = 1 := by simp [weight, h]

theorem weight_red {v : β} (h : Colored.color v = .red) : weight v = 0 := by simp [weight, h]

/-- The colour of the root; the absent cell is black. -/
def rootColor : Tree β → Color
  | .nil => .black
  | .node _ v _ _ => Colored.color v

@[simp] theorem rootColor_nil : rootColor (.nil : Tree β) = .black := rfl

@[simp] theorem rootColor_join (s : Side) (p : Ptr) (v : β) (a b : Tree β) :
    rootColor (join s p v a b) = Colored.color v := by cases s <;> rfl

/-- No red cell has a red child and every path has `n` black cells. -/
def Balanced : Tree β → Nat → Prop
  | .nil, n => n = 0
  | .node _ v l r, n =>
    (Colored.color v = .red → rootColor l = .black ∧ rootColor r = .black) ∧
      ∃ m, n = m + weight v ∧ Balanced l m ∧ Balanced r m

theorem balanced_join {s : Side} {p : Ptr} {v : β} {a b : Tree β} {n : Nat} :
    Balanced (join s p v a b) n ↔
      (Colored.color v = .red → rootColor a = .black ∧ rootColor b = .black) ∧
        ∃ m, n = m + weight v ∧ Balanced a m ∧ Balanced b m := by
  cases s with
  | left => exact Iff.rfl
  | right =>
    simp only [join, Balanced]
    constructor <;> rintro ⟨hred, m, hn, ha, hb⟩ <;>
      exact ⟨fun h => (hred h).symm, m, hn, hb, ha⟩

/-- A black cell above two trees of one height. -/
theorem Balanced.black {s : Side} {p : Ptr} {v : β} {a b : Tree β} {n : Nat}
    (hv : Colored.color v = .black) (ha : Balanced a n) (hb : Balanced b n) :
    Balanced (join s p v a b) (n + 1) :=
  balanced_join.mpr ⟨fun h => by simp [hv] at h, n, by rw [weight_black hv], ha, hb⟩

/-- A red cell above two trees of one height with black roots. -/
theorem Balanced.red {s : Side} {p : Ptr} {v : β} {a b : Tree β} {n : Nat}
    (hv : Colored.color v = .red) (ha : Balanced a n) (hb : Balanced b n)
    (hac : rootColor a = .black) (hbc : rootColor b = .black) :
    Balanced (join s p v a b) n :=
  balanced_join.mpr ⟨fun _ => ⟨hac, hbc⟩, n, by rw [weight_red hv, Nat.add_zero], ha, hb⟩

/-- What is below a red cell. -/
theorem Balanced.of_red {s : Side} {p : Ptr} {v : β} {a b : Tree β} {n : Nat}
    (h : Balanced (join s p v a b) n) (hv : Colored.color v = .red) :
    Balanced a n ∧ Balanced b n ∧ rootColor a = .black ∧ rootColor b = .black := by
  obtain ⟨hred, m, rfl, ha, hb⟩ := balanced_join.mp h
  rw [weight_red hv, Nat.add_zero]
  exact ⟨ha, hb, hred hv⟩

/-- What is below a black cell. -/
theorem Balanced.of_black {s : Side} {p : Ptr} {v : β} {a b : Tree β} {n : Nat}
    (h : Balanced (join s p v a b) (n + 1)) (hv : Colored.color v = .black) :
    Balanced a n ∧ Balanced b n := by
  obtain ⟨-, m, hn, ha, hb⟩ := balanced_join.mp h
  rw [weight_black hv] at hn
  obtain rfl := Nat.add_right_cancel hn
  exact ⟨ha, hb⟩

/-- A tree with a black cell on its paths has a root. -/
theorem Balanced.exists_root {t : Tree β} {n : Nat} (h : Balanced t (n + 1)) (s : Side) :
    ∃ p v a b, t = join s p v a b := by
  cases t with
  | nil => cases h
  | node p v l r =>
    cases s with
    | left => exact ⟨p, v, l, r, rfl⟩
    | right => exact ⟨p, v, r, l, rfl⟩

/-- The root may be made black. -/
theorem Balanced.setBlack {s : Side} {p : Ptr} {v : β} (v' : β) {a b : Tree β} {n : Nat}
    (h : Balanced (join s p v a b) n) (hv : Colored.color v' = .black) :
    ∃ m, Balanced (join s p v' a b) m := by
  obtain ⟨-, m, -, ha, hb⟩ := balanced_join.mp h
  exact ⟨m + 1, Balanced.black hv ha hb⟩

theorem exists_root_of_red {t : Tree β} (h : rootColor t = .red) (s : Side) :
    ∃ p v a b, t = join s p v a b ∧ Colored.color v = .red := by
  cases t with
  | nil => cases h
  | node p v l r =>
    cases s with
    | left => exact ⟨p, v, l, r, rfl, h⟩
    | right => exact ⟨p, v, r, l, rfl, h⟩

/-! ## Contexts -/

/-- A tree of height `n` whose root has colour `k` can be put into the hole; the root of the
whole is black when it is not in the hole. -/
def CtxBalanced : Color → Nat → List (Frame β) → Prop
  | _, _, [] => True
  | k, n, f :: c =>
    Balanced f.sib n ∧
      (Colored.color f.val = .red → k = .black ∧ rootColor f.sib = .black ∧ c ≠ []) ∧
      CtxBalanced (Colored.color f.val) (n + weight f.val) c

/-- A black root fits wherever a red one does. -/
theorem CtxBalanced.toBlack {k : Color} {n : Nat} {c : List (Frame β)} (h : CtxBalanced k n c) :
    CtxBalanced .black n c := by
  cases c with
  | nil => trivial
  | cons f c => exact ⟨h.1, fun hf => ⟨rfl, (h.2.1 hf).2⟩, h.2.2⟩

/-- Any root fits below a black cell. -/
theorem CtxBalanced.of_black {k : Color} {n : Nat} {f : Frame β} {c : List (Frame β)}
    (h : CtxBalanced k n (f :: c)) (hf : Colored.color f.val = .black) (k' : Color) :
    CtxBalanced k' n (f :: c) :=
  ⟨h.1, fun hr => by simp [hf] at hr, h.2.2⟩

/-- A balanced tree splits at any subtree. -/
theorem Balanced.split {c : List (Frame β)} {t : Tree β} {n : Nat} (h : Balanced (plug c t) n)
    (hroot : rootColor (plug c t) = .black) :
    ∃ m, Balanced t m ∧ CtxBalanced (rootColor t) m c := by
  induction c generalizing t with
  | nil => exact ⟨n, h, trivial⟩
  | cons f c ih =>
    obtain ⟨m, hm, hc⟩ := ih h hroot
    obtain ⟨hred, m', rfl, ht, hs⟩ := balanced_join.mp hm
    rw [rootColor_join] at hc
    refine ⟨m', ht, hs, fun hf => ⟨(hred hf).1, (hred hf).2, ?_⟩, hc⟩
    rintro rfl
    simp [hf] at hroot

/-- The whole is balanced when the content fits its hole. -/
theorem CtxBalanced.plug {c : List (Frame β)} {t : Tree β} {n : Nat}
    (hc : CtxBalanced (rootColor t) n c) (ht : Balanced t n) : ∃ m, Balanced (plug c t) m := by
  induction c generalizing t n with
  | nil => exact ⟨n, ht⟩
  | cons f c ih =>
    obtain ⟨hs, hred, hc⟩ := hc
    refine ih (t := join f.side f.ptr f.val t f.sib) (by rwa [rootColor_join]) ?_
    exact balanced_join.mpr ⟨fun hf => ⟨(hred hf).1, (hred hf).2.1⟩, n, rfl, ht, hs⟩

/-- The root of the whole is black when it is above the hole. -/
theorem CtxBalanced.rootColor_plug {k : Color} {n : Nat} {f : Frame β} {c : List (Frame β)}
    (hc : CtxBalanced k n (f :: c)) (t : Tree β) : rootColor (Tree.plug (f :: c) t) = .black := by
  induction c generalizing k n f t with
  | nil =>
    rw [plug_cons, plug_nil, rootColor_join]
    cases hcol : Colored.color f.val with
    | black => rfl
    | red => exact absurd rfl (hc.2.1 hcol).2.2
  | cons g c ih => exact ih hc.2.2 _

/-- A tree with a red root hangs below a black cell, or is the whole. -/
theorem CtxBalanced.black_of_red {n : Nat} {f : Frame β} {c : List (Frame β)}
    (hc : CtxBalanced .red n (f :: c)) : Colored.color f.val = .black := by
  cases hcol : Colored.color f.val with
  | black => rfl
  | red => exact absurd (hc.2.1 hcol).1 (by decide)

/-! ## Paths -/

/-- The payloads on each way from the root to an absent cell. -/
def paths : Tree β → List (List β)
  | .nil => [[]]
  | .node _ v l r => (paths l ++ paths r).map (v :: ·)

/-- The black cells on a path. -/
def blacks (vs : List β) : Nat := (vs.map weight).sum

/-- No red cell comes right after a red one. -/
def NoRedRed : List β → Prop
  | [] => True
  | v :: vs =>
    (∀ w ∈ vs.head?, Colored.color v = .red → Colored.color w = .black) ∧ NoRedRed vs

theorem head_paths {t : Tree β} {vs : List β} (h : vs ∈ paths t) :
    ∀ w ∈ vs.head?, rootColor t = Colored.color w := by
  cases t with
  | nil =>
    obtain rfl : vs = [] := by simpa [paths] using h
    simp
  | node p v l r =>
    simp only [paths, List.mem_map] at h
    obtain ⟨ws, -, rfl⟩ := h
    simp [rootColor]

/-- Along every path of a red-black tree. -/
theorem Balanced.paths {t : Tree β} {n : Nat} (h : Balanced t n) {vs : List β}
    (hvs : vs ∈ paths t) : blacks vs = n ∧ NoRedRed vs := by
  induction t generalizing n vs with
  | nil =>
    obtain rfl : vs = [] := by simpa [RedBlack.paths] using hvs
    exact ⟨h.symm, trivial⟩
  | node p v l r ihl ihr =>
    obtain ⟨hred, m, rfl, hl, hr⟩ := h
    simp only [RedBlack.paths, List.mem_map, List.mem_append] at hvs
    obtain ⟨ws, hws, rfl⟩ := hvs
    have hbelow : blacks ws = m ∧ NoRedRed ws := hws.elim (ihl hl) (ihr hr)
    refine ⟨?_, fun w hw hv => ?_, hbelow.2⟩
    · rw [← hbelow.1, blacks, blacks, List.map_cons, List.sum_cons, Nat.add_comm]
    · rcases hws with hws | hws
      · rw [← head_paths hws w hw, (hred hv).1]
      · rw [← head_paths hws w hw, (hred hv).2]

/-- At most every other cell of a path is red. -/
theorem NoRedRed.length_le {vs : List β} (h : NoRedRed vs) :
    vs.length ≤ 2 * blacks vs + (if ∃ w ∈ vs.head?, Colored.color w = .red then 1 else 0) := by
  induction vs with
  | nil => simp
  | cons v vs ih =>
    have hrest := ih h.2
    have hsum : blacks (v :: vs) = weight v + blacks vs := by simp [blacks]
    simp only [List.head?_cons, Option.mem_def, Option.some.injEq, exists_eq_left',
      List.length_cons, hsum]
    cases hv : Colored.color v with
    | black =>
      rw [weight_black hv]
      split at hrest <;> simp <;> omega
    | red =>
      rw [weight_red hv]
      have hhead : ¬ ∃ w ∈ vs.head?, Colored.color w = .red := by
        rintro ⟨w, hw, hred⟩
        rw [h.1 w hw hv] at hred
        cases hred
      rw [if_neg hhead] at hrest
      simp
      omega

/-- A tree of height `n` has `2 ^ n - 1` cells at least. -/
theorem Balanced.two_pow_le {t : Tree β} {n : Nat} (h : Balanced t n) : 2 ^ n ≤ t.size + 1 := by
  induction t generalizing n with
  | nil =>
    obtain rfl : n = 0 := h
    simp
  | node p v l r ihl ihr =>
    obtain ⟨-, m, rfl, hl, hr⟩ := h
    have hml := ihl hl
    have hmr := ihr hr
    have hw : 2 ^ (m + weight v) ≤ 2 * 2 ^ m := by
      rw [← pow_succ']
      refine Nat.pow_le_pow_right (by decide) ?_
      cases hv : Colored.color v with
      | black => rw [weight_black hv]
      | red => rw [weight_red hv]; omega
    simp only [size]
    omega

/-- No path of a red-black tree with `n` cells is longer than `2 * log2 (n + 1)`. -/
theorem Balanced.length_le {t : Tree β} {n : Nat} (h : Balanced t n)
    (hroot : rootColor t = .black) {vs : List β} (hvs : vs ∈ RedBlack.paths t) :
    (vs.length : ℝ) ≤ 2 * Real.logb 2 (t.size + 1) := by
  obtain ⟨hblacks, hnrr⟩ := h.paths hvs
  have hlen : vs.length ≤ 2 * n := by
    have hle := hnrr.length_le
    have hhead : ¬ ∃ w ∈ vs.head?, Colored.color w = .red := by
      rintro ⟨w, hw, hred⟩
      rw [← head_paths hvs w hw, hroot] at hred
      cases hred
    rwa [if_neg hhead, hblacks, Nat.add_zero] at hle
  have hlog : (n : ℝ) ≤ Real.logb 2 (t.size + 1) := by
    rw [Real.le_logb_iff_rpow_le (by norm_num) (by positivity), Real.rpow_natCast]
    exact_mod_cast h.two_pow_le
  have hcast : (vs.length : ℝ) ≤ 2 * n := by exact_mod_cast hlen
  linarith

end RedBlack

end OpxCommonUtils
