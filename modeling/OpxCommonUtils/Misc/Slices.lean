import Mathlib.Algebra.Order.Ring.Int

/-!
# Slices of an array

An array is a function on the integers. `slice` reads a stretch of slots as a list and `store`
assigns one.
-/

namespace OpxCommonUtils

variable {α : Type}

/-- The `n` slots from `lo` on. -/
def slice (f : Int → α) (lo : Int) : Nat → List α
  | 0 => []
  | n + 1 => f lo :: slice f (lo + 1) n

/-- The array with the elements of `l` in the slots from `lo` on. -/
def store (f : Int → α) (lo : Int) (l : List α) (i : Int) : α :=
  if lo ≤ i then l[(i - lo).toNat]?.getD (f i) else f i

@[simp] theorem length_slice (f : Int → α) (lo : Int) (n : Nat) : (slice f lo n).length = n := by
  induction n generalizing lo with
  | zero => rfl
  | succ n ih => simp [slice, ih]

theorem slice_congr {f g : Int → α} {lo : Int} {n : Nat}
    (h : ∀ i, lo ≤ i → i < lo + n → f i = g i) : slice f lo n = slice g lo n := by
  induction n generalizing lo with
  | zero => rfl
  | succ n ih =>
    rw [slice, slice, h lo (by omega) (by omega)]
    rw [ih fun i hlo hi => h i (by omega) (by omega)]

theorem slice_append (f : Int → α) (lo : Int) (m n : Nat) :
    slice f lo (m + n) = slice f lo m ++ slice f (lo + m) n := by
  induction m generalizing lo with
  | zero => simp [slice]
  | succ m ih =>
    rw [Nat.succ_add, slice, slice, ih]
    simp only [List.cons_append, Nat.cast_add, Nat.cast_one]
    congr 3
    omega

@[simp] theorem store_nil (f : Int → α) (lo : Int) : store f lo [] = f := by
  funext i
  simp [store]

theorem store_below {f : Int → α} {lo i : Int} {l : List α} (h : i < lo) :
    store f lo l i = f i := by
  unfold store
  rw [if_neg (by omega)]

theorem store_above {f : Int → α} {lo i : Int} {l : List α} (h : lo + l.length ≤ i) :
    store f lo l i = f i := by
  unfold store
  rw [if_pos (by omega), List.getElem?_eq_none (by omega)]
  rfl

theorem store_cons (f : Int → α) (lo : Int) (x : α) (l : List α) :
    store f lo (x :: l) = store (Function.update f lo x) (lo + 1) l := by
  funext i
  unfold store
  rcases lt_trichotomy i lo with h | rfl | h
  · rw [if_neg (by omega), if_neg (by omega), Function.update_of_ne (by omega)]
  · rw [if_pos (by omega), if_neg (by omega), Function.update_self]
    simp
  · have hi : (i - lo).toNat = (i - (lo + 1)).toNat + 1 := by omega
    rw [if_pos (by omega), if_pos (by omega), hi, List.getElem?_cons_succ,
      Function.update_of_ne (by omega)]

theorem store_append (f : Int → α) (lo : Int) (l r : List α) :
    store f lo (l ++ r) = store (store f lo l) (lo + l.length) r := by
  induction l generalizing f lo with
  | nil => simp
  | cons x l ih =>
    rw [List.cons_append, store_cons, ih, store_cons]
    congr 1
    simp only [List.length_cons, Nat.cast_add, Nat.cast_one]
    omega

/-- The last element can be assigned first. -/
theorem store_concat (f : Int → α) (lo : Int) (l : List α) (x : α) :
    store f lo (l ++ [x]) = store (Function.update f (lo + l.length) x) lo l := by
  funext i
  rcases lt_or_ge i lo with h | h
  · rw [store_below h, store_below h, Function.update_of_ne (by omega)]
  rcases lt_trichotomy i (lo + l.length) with hi | rfl | hi
  · unfold store
    rw [if_pos h, if_pos h, List.getElem?_append_left (by omega),
      List.getElem?_eq_getElem (by omega)]
    rfl
  · rw [store_above le_rfl, Function.update_self, store, if_pos h]
    simp
  · rw [store_above (by simp; omega), store_above (by omega),
      Function.update_of_ne (by omega)]

@[simp] theorem slice_store (f : Int → α) (lo : Int) (l : List α) :
    slice (store f lo l) lo l.length = l := by
  induction l generalizing f lo with
  | nil => rfl
  | cons x l ih =>
    rw [store_cons, List.length_cons, slice, ih, store_below (by omega), Function.update_self]

/-- The slots from `lo` to `hi`. -/
def between (f : Int → α) (lo hi : Int) : List α := slice f lo (hi + 1 - lo).toNat

theorem length_between (f : Int → α) (lo hi : Int) (h : lo ≤ hi + 1) :
    ((between f lo hi).length : Int) = hi + 1 - lo := by
  rw [between, length_slice]
  omega

theorem between_of_lt (f : Int → α) {lo hi : Int} (h : hi < lo) : between f lo hi = [] := by
  rw [between, Int.toNat_of_nonpos (by omega)]
  rfl

theorem between_cons (f : Int → α) {lo hi : Int} (h : lo ≤ hi) :
    between f lo hi = f lo :: between f (lo + 1) hi := by
  have hn : (hi + 1 - lo).toNat = (hi + 1 - (lo + 1)).toNat + 1 := by omega
  rw [between, hn]
  rfl

theorem between_append (f : Int → α) (mid : Int) {lo hi : Int} (hlo : lo ≤ mid + 1)
    (hhi : mid ≤ hi) :
    between f lo hi = between f lo mid ++ between f (mid + 1) hi := by
  have hn : (hi + 1 - lo).toNat = (mid + 1 - lo).toNat + (hi + 1 - (mid + 1)).toNat := by omega
  rw [between, hn, slice_append, between, between]
  congr 2
  omega

theorem between_self (f : Int → α) (lo : Int) : between f lo lo = [f lo] := by
  rw [between_cons f le_rfl, between_of_lt f (by omega)]

theorem between_concat (f : Int → α) {lo hi : Int} (h : lo ≤ hi) :
    between f lo hi = between f lo (hi - 1) ++ [f hi] := by
  rw [between_append f (hi - 1) (by omega) (by omega), Int.sub_add_cancel, between_self]

theorem between_congr {f g : Int → α} {lo hi : Int} (h : ∀ i, lo ≤ i → i ≤ hi → f i = g i) :
    between f lo hi = between g lo hi :=
  slice_congr fun i hlo hi => h i hlo (by omega)

theorem between_store (f : Int → α) {lo hi : Int} {l : List α}
    (h : (l.length : Int) = hi + 1 - lo) :
    between (store f lo l) lo hi = l := by
  have hn : (hi + 1 - lo).toNat = l.length := by omega
  rw [between, hn, slice_store]

end OpxCommonUtils
