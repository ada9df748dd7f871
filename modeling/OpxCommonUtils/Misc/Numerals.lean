import OpxCommonUtils.Misc.CString

/-!
# Numerals

Digits in a base up to 36, the numbers that strings of digits stand for, and the same digits read
in a smaller base.
-/

namespace OpxCommonUtils

/-- The value of a character as a digit, in letters of either case. -/
def digitValue (c : UInt8) : Option Nat :=
  if 48 ≤ c ∧ c ≤ 57 then some (c.toNat - 48)
  else if 97 ≤ c ∧ c ≤ 122 then some (c.toNat - 87)
  else if 65 ≤ c ∧ c ≤ 90 then some (c.toNat - 55)
  else none

/-- A digit of the base. -/
def isDigit (base : Nat) (c : UInt8) : Bool := (digitValue c).any (· < base)

/-- The number that digits stand for, the highest first. -/
def numeral (base : Nat) (ds : StdString) : Nat :=
  ds.foldl (fun n c => base * n + (digitValue c).getD 0) 0

variable {base b : Nat} {ds : StdString} {c : UInt8}

@[simp] theorem numeral_nil : numeral base [] = 0 := rfl

@[simp] theorem numeral_snoc (ds : StdString) (c : UInt8) :
    numeral base (ds ++ [c]) = base * numeral base ds + (digitValue c).getD 0 := by
  simp [numeral]

theorem digit_lt (h : isDigit base c) : (digitValue c).getD 0 < base := by
  rw [isDigit] at h
  cases hv : digitValue c with
  | none => simp [hv] at h
  | some v => simpa [hv] using h

theorem numeral_lt (h : ∀ c ∈ ds, isDigit base c) : numeral base ds < base ^ ds.length := by
  induction ds using List.reverseRecOn with
  | nil => exact Nat.one_pos
  | append_singleton ds c ih =>
    have hc := digit_lt (h c (by simp))
    have hds := ih fun c hc => h c (by simp [hc])
    rw [numeral_snoc, List.length_append, List.length_singleton, Nat.pow_succ']
    calc base * numeral base ds + (digitValue c).getD 0
        < base * numeral base ds + base := Nat.add_lt_add_left hc _
      _ = base * (numeral base ds + 1) := (Nat.mul_succ ..).symm
      _ ≤ base * base ^ ds.length := Nat.mul_le_mul_left _ hds

theorem isDigit_ten (h : isDigit 10 c) : 48 ≤ c.toNat ∧ c.toNat ≤ 57 := by
  rw [isDigit, digitValue] at h
  simp only [UInt8.le_iff_toNat_le, UInt8.reduceToNat] at h
  split at h
  · next hrange => exact hrange
  · split at h
    · simp only [Option.any_some, decide_eq_true_eq] at h
      omega
    · split at h
      · simp only [Option.any_some, decide_eq_true_eq] at h
        omega
      · simp at h

/-- Digits stand behind the white space. -/
theorem le_of_isDigit (h : isDigit base c) : 48 ≤ c.toNat := by
  rw [isDigit, digitValue] at h
  simp only [UInt8.le_iff_toNat_le, UInt8.reduceToNat] at h
  split_ifs at h with h1 h2 h3
  · exact h1.1
  · omega
  · omega
  · simp at h

/-- What ends the longest run of digits. -/
theorem exists_not_digit (h : ¬ ∀ c ∈ ds, isDigit base c) :
    ∃ c es, ds = ds.takeWhile (isDigit base) ++ c :: es ∧ ¬ isDigit base c := by
  have hne : ds.dropWhile (isDigit base) ≠ [] := fun hnil => h (List.dropWhile_eq_nil_iff.mp hnil)
  obtain ⟨c, es, hdrop⟩ := List.exists_cons_of_ne_nil hne
  refine ⟨c, es, ?_, ?_⟩
  · rw [← hdrop, List.takeWhile_append_dropWhile]
  · have hhead := List.head_dropWhile_not (isDigit base) hne
    simpa [hdrop] using hhead

/-- In a smaller base the same digits are worth less. -/
theorem numeral_le_numeral (hb : b ≤ base) (ds : StdString) : numeral b ds ≤ numeral base ds := by
  induction ds using List.reverseRecOn with
  | nil => rfl
  | append_singleton ds c ih =>
    rw [numeral_snoc, numeral_snoc]
    exact Nat.add_le_add_right (Nat.mul_le_mul hb ih) _

theorem numeral_le_append (hb : 0 < base) (ds es : StdString) :
    numeral base ds ≤ numeral base (ds ++ es) := by
  induction es using List.reverseRecOn with
  | nil => rw [List.append_nil]
  | append_singleton es c ih =>
    rw [← List.append_assoc, numeral_snoc]
    have := Nat.le_mul_of_pos_left (numeral base (ds ++ es)) hb
    omega

/-- A digit that the smaller base lacks makes the number larger than the base and what stands before
the digit. -/
theorem numeral_lt_of_not_digit (hb : 0 < b) (hle : b ≤ base) (hc : isDigit base c)
    (hnot : ¬ isDigit b c) (ds es : StdString) :
    numeral b ds < numeral base (ds ++ c :: es) ∧ b ≤ numeral base (ds ++ c :: es) := by
  have hval : b ≤ (digitValue c).getD 0 := by
    rw [isDigit] at hc hnot
    cases hv : digitValue c with
    | none => simp [hv] at hc
    | some v => simpa [hv] using hnot
  have hrest := numeral_le_append (hb.trans_le hle) (ds ++ [c]) es
  have hds := numeral_le_numeral hle ds
  have hmul := Nat.le_mul_of_pos_left (numeral base ds) (hb.trans_le hle)
  rw [numeral_snoc, List.append_assoc, List.singleton_append] at hrest
  constructor <;> omega

/-- Read in a smaller base digits stand for the same number only if it is a single digit. -/
theorem numeral_eq_iff (hb : 0 < b) (hlt : b < base) (h : ∀ c ∈ ds, isDigit b c) :
    numeral b ds = numeral base ds ↔ numeral base ds < b := by
  rcases ds.eq_nil_or_concat' with rfl | ⟨ds, c, rfl⟩
  · exact iff_of_true rfl hb
  · have hc := digit_lt (h c (by simp))
    have hle := numeral_le_numeral hlt.le ds
    rw [numeral_snoc, numeral_snoc]
    rcases Nat.eq_zero_or_pos (numeral base ds) with h0 | hpos
    · have h0' : numeral b ds = 0 := by omega
      rw [h0, h0', Nat.mul_zero, Nat.mul_zero]
      exact iff_of_true rfl (by omega)
    · have hsmall : b * numeral b ds ≤ b * numeral base ds := Nat.mul_le_mul_left b hle
      have hlarge : b * numeral base ds < base * numeral base ds :=
        Nat.mul_lt_mul_of_pos_right hlt hpos
      have hbase : base ≤ base * numeral base ds := Nat.le_mul_of_pos_right base hpos
      exact iff_of_false (by omega) (by omega)

end OpxCommonUtils
