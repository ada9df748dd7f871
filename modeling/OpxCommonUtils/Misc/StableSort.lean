import Mathlib.Data.List.Perm.Basic

/-!
# Stable sorting by a comparison function

A comparison function in the C manner answers with the sign of an `int`. The laws are asked only of
the elements at hand. `StableSorting` relates a list to its stable sorting, and merging two stable
sortings sorts the concatenation; adding one element is the case of a list of one.
-/

namespace OpxCommonUtils

variable {α : Type} {cmp : α → α → Int}

/-- `cmp` is a total preorder on the elements that satisfy `s`: exchanging its arguments exchanges
the sign, and "not above" is transitive. -/
structure TotalPreorderOn (cmp : α → α → Int) (s : α → Prop) : Prop where
  swap : ∀ {a b}, s a → s b → (0 < cmp a b ↔ cmp b a < 0)
  trans : ∀ {a b c}, s a → s b → s c → cmp a b ≤ 0 → cmp b c ≤ 0 → cmp a c ≤ 0

namespace TotalPreorderOn

variable {s : α → Prop}

/-- The order of a field. -/
theorem comap {γ : Type} (h : TotalPreorderOn cmp s) (f : γ → α) :
    TotalPreorderOn (fun a b => cmp (f a) (f b)) fun a => s (f a) where
  swap ha hb := h.swap ha hb
  trans ha hb hc := h.trans ha hb hc

theorem le_of_not_le (h : TotalPreorderOn cmp s) {a b : α} (ha : s a) (hb : s b)
    (hab : ¬ cmp a b ≤ 0) : cmp b a ≤ 0 := by
  have := (h.swap ha hb).mp (by omega)
  omega

end TotalPreorderOn

/-- No element is above a later one. -/
def SortedBy (cmp : α → α → Int) (l : List α) : Prop := l.Pairwise fun a b => cmp a b ≤ 0

/-- `after` is `before` sorted, with the elements that compare equal to any one of `s` in their old
order. -/
structure StableSorting (cmp : α → α → Int) (s : α → Prop) (before after : List α) : Prop where
  perm : after.Perm before
  sorted : SortedBy cmp after
  stable : ∀ x, s x → after.filter (cmp x · = 0) = before.filter (cmp x · = 0)

/-- Merging with preference for the first list. -/
def mergeBy (cmp : α → α → Int) (l r : List α) : List α := l.merge r fun a b => cmp a b ≤ 0

@[simp] theorem mergeBy_nil_left (r : List α) : mergeBy cmp [] r = r := List.nil_merge r

@[simp] theorem mergeBy_nil_right (l : List α) : mergeBy cmp l [] = l := List.merge_right l

theorem mergeBy_cons_of_le {a b : α} (h : cmp a b ≤ 0) (l r : List α) :
    mergeBy cmp (a :: l) (b :: r) = a :: mergeBy cmp l (b :: r) :=
  List.cons_merge_cons_pos _ _ _ (decide_eq_true h)

theorem mergeBy_cons_of_not_le {a b : α} (h : ¬ cmp a b ≤ 0) (l r : List α) :
    mergeBy cmp (a :: l) (b :: r) = b :: mergeBy cmp (a :: l) r :=
  List.cons_merge_cons_neg _ _ _ (by simpa using h)

theorem mergeBy_perm (l r : List α) : (mergeBy cmp l r).Perm (l ++ r) :=
  List.merge_perm_append _

@[simp] theorem mem_mergeBy {x : α} {l r : List α} : x ∈ mergeBy cmp l r ↔ x ∈ l ∨ x ∈ r :=
  List.mem_merge

/-- `x` goes right before the first element that is above it. -/
def insertBy (cmp : α → α → Int) (x : α) : List α → List α
  | [] => [x]
  | y :: ys => if cmp x y < 0 then x :: y :: ys else y :: insertBy cmp x ys

theorem insertBy_map {γ : Type} {cmp' : γ → γ → Int} (f : α → γ) {x : α} {l : List α}
    (h : ∀ y ∈ l, cmp' (f x) (f y) = cmp x y) :
    insertBy cmp' (f x) (l.map f) = (insertBy cmp x l).map f := by
  induction l with
  | nil => rfl
  | cons y ys ih =>
    rw [List.map_cons, insertBy, insertBy, h y List.mem_cons_self,
      ih fun a ha => h a (List.mem_cons_of_mem _ ha)]
    split <;> rfl

theorem mem_insertBy {x y : α} {l : List α} : y ∈ insertBy cmp x l ↔ y = x ∨ y ∈ l := by
  induction l with
  | nil => simp [insertBy]
  | cons z zs ih =>
    rw [insertBy]
    split
    · exact List.mem_cons
    · rw [List.mem_cons, ih, List.mem_cons]
      tauto

section Merge

variable {s : α → Prop}

theorem insertBy_eq_mergeBy (h : TotalPreorderOn cmp s) {l : List α} (hl : ∀ a ∈ l, s a) {x : α}
    (hx : s x) : insertBy cmp x l = mergeBy cmp l [x] := by
  induction l with
  | nil => simp [insertBy]
  | cons y ys ih =>
    have hy : s y := hl y List.mem_cons_self
    have hswap := h.swap hy hx
    rw [insertBy]
    by_cases hlt : cmp x y < 0
    · rw [if_pos hlt, mergeBy_cons_of_not_le (by omega), mergeBy_nil_right]
    · rw [if_neg hlt, mergeBy_cons_of_le (by omega),
        ih fun a ha => hl a (List.mem_cons_of_mem _ ha)]

theorem SortedBy.merge (h : TotalPreorderOn cmp s) {l r : List α} (hl : ∀ a ∈ l, s a)
    (hr : ∀ a ∈ r, s a) (hsl : SortedBy cmp l) (hsr : SortedBy cmp r) :
    SortedBy cmp (mergeBy cmp l r) := by
  induction l generalizing r with
  | nil => simpa using hsr
  | cons a l ihl =>
    induction r with
    | nil => simpa using hsl
    | cons b r ihr =>
      obtain ⟨hal, hsl'⟩ := List.pairwise_cons.mp hsl
      obtain ⟨hbr, hsr'⟩ := List.pairwise_cons.mp hsr
      have ha : s a := hl a List.mem_cons_self
      have hb : s b := hr b List.mem_cons_self
      by_cases hab : cmp a b ≤ 0
      · rw [mergeBy_cons_of_le hab]
        refine .cons ?_ (ihl (fun x hx => hl x (List.mem_cons_of_mem _ hx)) hr hsl' hsr)
        intro x hx
        rcases mem_mergeBy.mp hx with hx | hx
        · exact hal x hx
        · rcases List.mem_cons.mp hx with rfl | hx
          · exact hab
          · exact h.trans ha hb (hr x (List.mem_cons_of_mem _ hx)) hab (hbr x hx)
      · rw [mergeBy_cons_of_not_le hab]
        have hba := h.le_of_not_le ha hb hab
        refine .cons ?_ (ihr (fun x hx => hr x (List.mem_cons_of_mem _ hx)) hsr')
        intro x hx
        rcases mem_mergeBy.mp hx with hx | hx
        · rcases List.mem_cons.mp hx with rfl | hx
          · exact hba
          · exact h.trans hb ha (hl x (List.mem_cons_of_mem _ hx)) hba (hal x hx)
        · exact hbr x hx

/-- Merging sorted lists keeps what compares equal to `x` in order, the first list's before the
second's. -/
theorem filter_mergeBy (h : TotalPreorderOn cmp s) {l r : List α} (hl : ∀ a ∈ l, s a)
    (hr : ∀ a ∈ r, s a) (hsl : SortedBy cmp l) {x : α} (hx : s x) :
    (mergeBy cmp l r).filter (cmp x · = 0) =
      l.filter (cmp x · = 0) ++ r.filter (cmp x · = 0) := by
  induction l generalizing r with
  | nil => simp
  | cons a l ihl =>
    induction r with
    | nil => simp
    | cons b r ihr =>
      obtain ⟨hal, hsl'⟩ := List.pairwise_cons.mp hsl
      have ha : s a := hl a List.mem_cons_self
      have hb : s b := hr b List.mem_cons_self
      by_cases hab : cmp a b ≤ 0
      · rw [mergeBy_cons_of_le hab, List.filter_cons,
          ihl (fun y hy => hl y (List.mem_cons_of_mem _ hy)) hr hsl', List.filter_cons (x := a)]
        split <;> rfl
      · rw [mergeBy_cons_of_not_le hab, List.filter_cons,
          ihr fun y hy => hr y (List.mem_cons_of_mem _ hy), List.filter_cons (x := b)]
        split
        case isFalse => rfl
        case isTrue hxb =>
          -- Everything left in the first list is above `b`, so nothing there compares equal.
          have hnone : (a :: l).filter (cmp x · = 0) = [] := by
            apply List.filter_eq_nil_iff.mpr
            intro y hy hxy
            have hys : s y := hl y hy
            have hay : cmp a y ≤ 0 := by
              rcases List.mem_cons.mp hy with rfl | hy
              · have := h.swap hys hys
                omega
              · exact hal y hy
            have hxb : cmp x b = 0 := by simpa using hxb
            have hxy : cmp x y = 0 := by simpa using hxy
            have hyx : cmp y x ≤ 0 := by
              have := h.swap hys hx
              omega
            exact hab (h.trans ha hys hb hay (h.trans hys hx hb hyx (by omega)))
          rw [hnone]
          rfl

end Merge

namespace StableSorting

variable {s : α → Prop}

theorem nil : StableSorting cmp s [] [] := ⟨.refl _, .nil, fun _ _ => rfl⟩

theorem singleton (x : α) : StableSorting cmp s [x] [x] :=
  ⟨.refl _, List.pairwise_singleton _ _, fun _ _ => rfl⟩

theorem mem_iff {before after : List α} (h : StableSorting cmp s before after) {x : α} :
    x ∈ after ↔ x ∈ before := h.perm.mem_iff

/-- Merging the stable sortings of two lists gives that of their concatenation. -/
theorem merge {l l' r r' : List α} (h : TotalPreorderOn cmp s) (hls : ∀ a ∈ l, s a)
    (hrs : ∀ a ∈ r, s a) (hl : StableSorting cmp s l l') (hr : StableSorting cmp s r r') :
    StableSorting cmp s (l ++ r) (mergeBy cmp l' r') := by
  have hl' : ∀ a ∈ l', s a := fun a ha => hls a (hl.mem_iff.mp ha)
  have hr' : ∀ a ∈ r', s a := fun a ha => hrs a (hr.mem_iff.mp ha)
  refine ⟨(mergeBy_perm l' r').trans (hl.perm.append hr.perm),
    .merge h hl' hr' hl.sorted hr.sorted, ?_⟩
  intro x hx
  rw [filter_mergeBy h hl' hr' hl.sorted hx, hl.stable x hx, hr.stable x hx, List.filter_append]

/-- One more element goes behind everything that is not above it. -/
theorem insert {before after : List α} {x : α} (h : TotalPreorderOn cmp s)
    (hbs : ∀ a ∈ before, s a) (hxs : s x) (hs : StableSorting cmp s before after) :
    StableSorting cmp s (before ++ [x]) (insertBy cmp x after) := by
  rw [insertBy_eq_mergeBy h (fun a ha => hbs a (hs.mem_iff.mp ha)) hxs]
  apply merge h hbs _ hs (singleton x)
  intro a ha
  rwa [List.mem_singleton.mp ha]

/-- Leaving out elements keeps a stable sorting one. -/
theorem filter {before after : List α} (hs : StableSorting cmp s before after) (p : α → Bool) :
    StableSorting cmp s (before.filter p) (after.filter p) := by
  refine ⟨hs.perm.filter p, hs.sorted.filter p, fun x hx => ?_⟩
  rw [List.filter_comm, hs.stable x hx, List.filter_comm]

/-- A field of the elements is sorted with them. -/
theorem map {γ : Type} {f : γ → α} (hf : Function.Surjective f) {before after : List γ}
    (hs : StableSorting (fun a b => cmp (f a) (f b)) (fun a => s (f a)) before after) :
    StableSorting cmp s (before.map f) (after.map f) := by
  refine ⟨hs.perm.map f, List.pairwise_map.mpr hs.sorted, fun x hx => ?_⟩
  obtain ⟨z, rfl⟩ := hf x
  rw [List.filter_map, List.filter_map]
  exact congrArg (List.map f) (hs.stable z hx)

end StableSorting

/-- There is only one sorted arrangement with the equal elements in a given order. -/
theorem SortedBy.unique {s : α → Prop} (h : TotalPreorderOn cmp s) (l : List α) : ∀ {l' : List α},
    (∀ a ∈ l, s a) → l.Perm l' → SortedBy cmp l → SortedBy cmp l' →
    (∀ x, s x → l.filter (cmp x · = 0) = l'.filter (cmp x · = 0)) → l = l' := by
  induction l with
  | nil =>
    intro l' _ hperm _ _ _
    exact (List.nil_perm.mp hperm).symm
  | cons x l ih =>
    intro l' hs hperm hl hl' hfilter
    obtain ⟨y, m, rfl⟩ : ∃ y m, l' = y :: m := by
      cases l' with
      | nil => exact absurd hperm.symm (by simp)
      | cons y m => exact ⟨y, m, rfl⟩
    have hx : s x := hs x List.mem_cons_self
    have hy : s y := hs y (hperm.mem_iff.mpr List.mem_cons_self)
    obtain ⟨hxl, hl⟩ := List.pairwise_cons.mp hl
    obtain ⟨hym, hm⟩ := List.pairwise_cons.mp hl'
    have hself := h.swap hx hx
    have hxx : cmp x x = 0 := by omega
    -- the two heads are equal in the order, and the first of their kind
    obtain rfl : x = y := by
      rcases List.mem_cons.mp (hperm.mem_iff.mp List.mem_cons_self) with heq | hxm
      · exact heq
      rcases List.mem_cons.mp (hperm.mem_iff.mpr List.mem_cons_self) with heq | hyl
      · exact heq.symm
      have hswap := h.swap hy hx
      have hle := hxl y hyl
      have hge := hym x hxm
      have hxy : cmp x y = 0 := by omega
      have heads := hfilter x hx
      rw [List.filter_cons_of_pos (by simpa using hxx),
        List.filter_cons_of_pos (by simpa using hxy)] at heads
      exact (List.cons.inj heads).1
    refine congrArg (x :: ·) (ih (fun a ha => hs a (List.mem_cons_of_mem _ ha))
      hperm.cons_inv hl hm fun z hz => ?_)
    have hz' := hfilter z hz
    by_cases hzx : cmp z x = 0
    · rw [List.filter_cons_of_pos (by simpa using hzx),
        List.filter_cons_of_pos (by simpa using hzx)] at hz'
      exact (List.cons.inj hz').2
    · rwa [List.filter_cons_of_neg (by simpa using hzx),
        List.filter_cons_of_neg (by simpa using hzx)] at hz'

/-- There is only one stable sorting. -/
theorem StableSorting.unique {s : α → Prop} (h : TotalPreorderOn cmp s) {before l l' : List α}
    (hs : ∀ a ∈ before, s a) (hl : StableSorting cmp s before l)
    (hl' : StableSorting cmp s before l') : l = l' :=
  SortedBy.unique h l (fun a ha => hs a (hl.mem_iff.mp ha)) (hl.perm.trans hl'.perm.symm) hl.sorted
    hl'.sorted fun x hx => (hl.stable x hx).trans (hl'.stable x hx).symm

end OpxCommonUtils
