/-!
# Edits of a mask

An edit assigns a mask, sets bits or clears bits. A run from a base takes the base in place of a mask
without bits before it sets or clears. A run in which every such edit finds a bit set never needs its
base (`runFrom_of_findsBits`).
-/

namespace OpxCommonUtils

/-- An edit of a mask. -/
inductive MaskEdit (w : Nat) where
  | assign (b : BitVec w)
  | set (b : BitVec w)
  | clear (b : BitVec w)
  deriving DecidableEq

namespace MaskEdit

variable {w : Nat}

/-- An edit, before which a mask without bits becomes the base unless it is assigned. -/
def applyFrom (base m : BitVec w) : MaskEdit w → BitVec w
  | assign b => b
  | set b => (if m = 0 then base else m) ||| b
  | clear b => (if m = 0 then base else m) &&& ~~~b

/-- One edit after the other. -/
def runFrom (base m : BitVec w) (es : List (MaskEdit w)) : BitVec w :=
  es.foldl (applyFrom base) m

@[simp] theorem runFrom_nil (base m : BitVec w) : runFrom base m [] = m := rfl

@[simp] theorem runFrom_cons (base m : BitVec w) (e : MaskEdit w) (es : List (MaskEdit w)) :
    runFrom base m (e :: es) = runFrom base (e.applyFrom base m) es := rfl

theorem runFrom_append (base m : BitVec w) (es fs : List (MaskEdit w)) :
    runFrom base m (es ++ fs) = runFrom base (runFrom base m es) fs :=
  List.foldl_append

/-- The bits an edit is about. -/
def bits : MaskEdit w → BitVec w
  | assign b => b
  | set b => b
  | clear b => b

/-- A mask has no bits outside of `k`. -/
def Within (k m : BitVec w) : Prop := ∀ (i : Nat) (hi : i < w), m[i] = true → k[i] = true

theorem within_and (k m : BitVec w) : Within k (m &&& k) := by
  intro i hi h
  rw [BitVec.getElem_and, Bool.and_eq_true] at h
  exact h.2

theorem Within.and_eq {k m : BitVec w} (h : Within k m) : m &&& k = m := by
  ext i hi
  have hbit := h i hi
  rw [BitVec.getElem_and]
  cases hm : m[i] with
  | false => rfl
  | true => rw [hbit hm]; rfl

theorem within_zero (k : BitVec w) : Within k 0 := by
  intro i hi h
  simp at h

theorem Within.or {k m b : BitVec w} (hm : Within k m) (hb : Within k b) : Within k (m ||| b) := by
  intro i hi h
  rw [BitVec.getElem_or, Bool.or_eq_true] at h
  exact h.elim (hm i hi) (hb i hi)

theorem applyFrom_within {k base m : BitVec w} (hbase : Within k base) (hm : Within k m)
    {e : MaskEdit w} (he : Within k e.bits) : Within k (e.applyFrom base m) := by
  have hstart : Within k (if m = 0 then base else m) := by
    split
    · exact hbase
    · exact hm
  cases e with
  | assign b => exact he
  | set b => exact hstart.or he
  | clear b =>
    intro i hi h
    rw [applyFrom, BitVec.getElem_and, Bool.and_eq_true] at h
    exact hstart i hi h.1

theorem runFrom_within {k base : BitVec w} (hbase : Within k base) {es : List (MaskEdit w)}
    (hes : ∀ e ∈ es, Within k e.bits) {m : BitVec w} (hm : Within k m) :
    Within k (runFrom base m es) := by
  induction es generalizing m with
  | nil => exact hm
  | cons e es ih =>
    have hstep := applyFrom_within hbase hm (hes e List.mem_cons_self)
    exact ih (fun f hf => hes f (List.mem_cons_of_mem e hf)) hstep

/-- A run that begins without bits is the run that begins with the base. -/
theorem runFrom_zero (base : BitVec w) {es : List (MaskEdit w)} (hes : es ≠ []) :
    runFrom base 0 es = runFrom base base es := by
  cases es with
  | nil => exact absurd rfl hes
  | cons e es =>
    have hstep : e.applyFrom base 0 = e.applyFrom base base := by
      cases e <;> simp [applyFrom]
    rw [runFrom_cons, hstep, runFrom_cons]

/-- Every edit that sets or clears finds a bit set. -/
def FindsBits : BitVec w → List (MaskEdit w) → Prop
  | _, [] => True
  | _, assign b :: es => FindsBits b es
  | m, e :: es => m ≠ 0 ∧ FindsBits (e.applyFrom 0 m) es

/-- A run in which every edit finds a bit set never needs its base. -/
theorem runFrom_of_findsBits {m : BitVec w} {es : List (MaskEdit w)} (h : FindsBits m es)
    (base base' : BitVec w) : runFrom base m es = runFrom base' m es := by
  induction es generalizing m with
  | nil => rfl
  | cons e es ih =>
    cases e with
    | assign b => exact ih h
    | set b =>
      obtain ⟨hne, hrest⟩ := h
      simp only [runFrom_cons, applyFrom, if_neg hne] at hrest ⊢
      exact ih hrest
    | clear b =>
      obtain ⟨hne, hrest⟩ := h
      simp only [runFrom_cons, applyFrom, if_neg hne] at hrest ⊢
      exact ih hrest

end MaskEdit

end OpxCommonUtils
