import OpxCommonUtils.Bits.Array
import OpxCommonUtils.Bits.Proofs.Search
import Mathlib.Data.Finset.SymmDiff
import Mathlib.Order.Interval.Finset.Nat

/-!
# A bit array is a finite set

Whatever sequence of changes an array has seen, its bits are the set that the same changes make of
the positions. The padding behind the last bit belongs to the array: a complement and an array that
is created with all bits set reach it, so the searches are exact when neither was used.
-/

namespace OpxCommonUtils.Bits

theorem bittobytelen_eq {len : Nat} (h : len < 2 ^ 32) : bittobytelen len = stdBytesForBits len := by
  unfold bittobytelen stdBytesForBits
  dsimp only
  rw [Nat.mod_eq_of_lt h, Nat.add_comm]

theorem changeAt_of_lt {α : Type} {array : List α} {ix : Nat} (h : ix < array.length)
    (change : α → α) : changeAt array ix change = .ok (array.set ix (change array[ix])) := by
  unfold changeAt
  rw [readAt_of_lt h]
  rfl

section Bytes

variable (b : UInt8) {j : Nat}

theorem testBit_or_bitMask (i : Nat) (hj : j < 8) :
    (b ||| bitMask i).toNat.testBit j = (b.toNat.testBit j || decide (j = i % 8)) := by
  unfold bitMask
  rw [UInt8.toNat_or, Nat.testBit_or, UInt8.toNat_ofNat', Nat.testBit_mod_two_pow, Nat.one_shiftLeft,
    Nat.testBit_two_pow]
  have hcomm : decide (i % 8 = j) = decide (j = i % 8) := decide_eq_decide.mpr eq_comm
  simp [hj, hcomm]

theorem testBit_not (hj : j < 8) : (~~~b).toNat.testBit j = !b.toNat.testBit j := by
  rw [← UInt8.toNat_toBitVec, ← UInt8.toNat_toBitVec, UInt8.toBitVec_not, BitVec.testBit_toNat,
    BitVec.testBit_toNat, BitVec.getLsbD_not]
  simp [hj]

theorem testBit_clear_bitMask (i : Nat) (hj : j < 8) :
    (b &&& ~~~bitMask i).toNat.testBit j = (b.toNat.testBit j && !decide (j = i % 8)) := by
  have hmask := testBit_or_bitMask 0 i hj
  rw [UInt8.zero_or, UInt8.toNat_zero, Nat.zero_testBit, Bool.false_or] at hmask
  rw [UInt8.toNat_and, Nat.testBit_and, testBit_not _ hj, hmask]

end Bytes

section Array

variable {array : List UInt8}

/-- Bit `i` of the array, in the byte that has it. -/
theorem stdBitArrayTest_iff_testBit (i : Nat) :
    stdBitArrayTest array i ↔ ∃ h : i / 8 < array.length, array[i / 8].toNat.testBit (i % 8) := by
  rcases Nat.lt_or_ge (i / 8) array.length with h | h
  · have := stdBitArrayTest_iff h (show i % 8 < 8 by omega)
    rw [show i % 8 + i / 8 * 8 = i by omega] at this
    simpa [h] using this
  · have hnone : array[i / 8]? = none := List.getElem?_eq_none h
    unfold stdBitArrayTest
    rw [List.getD_eq_getElem?_getD, hnone]
    simp [Nat.not_lt.mpr h]

theorem stdBitArrayTest_set {ix : Nat} (hix : ix < array.length) (b : UInt8) (i : Nat) :
    stdBitArrayTest (array.set ix b) i ↔
      if i / 8 = ix then b.toNat.testBit (i % 8) = true else stdBitArrayTest array i := by
  rw [stdBitArrayTest_iff_testBit]
  by_cases h : i / 8 = ix
  · subst h
    simp [hix]
  · rw [if_neg h, stdBitArrayTest_iff_testBit]
    simp [List.getElem_set_ne (Ne.symm h)]

/-- The array has the bits of the set, in as many bytes as `len` bits need. -/
structure IsSet (len : Nat) (array : List UInt8) (S : Finset Nat) : Prop where
  length : array.length = stdBytesForBits len
  test : ∀ i, stdBitArrayTest array i ↔ i ∈ S

variable {len : Nat} {S : Finset Nat}

theorem IsSet.byte_lt (h : IsSet len array S) {i : Nat} (hi : i < len) :
    i / 8 < array.length := by
  have hbounds := stdBytesForBits_bounds len
  rw [h.length]
  omega

/-- A change of one byte, and what it makes of the set. -/
theorem IsSet.changeByte (h : IsSet len array S) {ix : Nat} (hix : ix < array.length)
    {change : UInt8 → UInt8} {S' : Finset Nat}
    (hbyte : ∀ i, i / 8 = ix →
      ((change array[ix]).toNat.testBit (i % 8) = true ↔ i ∈ S'))
    (hrest : ∀ i, i / 8 ≠ ix → (i ∈ S' ↔ i ∈ S)) :
    ∃ array', changeAt array ix change = .ok array' ∧ IsSet len array' S' := by
  refine ⟨_, changeAt_of_lt hix change, by rw [List.length_set, h.length], fun i => ?_⟩
  rw [stdBitArrayTest_set hix]
  split_ifs with hi
  · exact hbyte i hi
  · rw [h.test, hrest i hi]

/-- The bit of a byte is the membership of its position. -/
theorem IsSet.testBit (h : IsSet len array S) {i : Nat} (hi : i / 8 < array.length) :
    array[i / 8].toNat.testBit (i % 8) = decide (i ∈ S) := by
  have htest := h.test i
  rw [stdBitArrayTest_iff_testBit] at htest
  rw [Bool.eq_iff_iff, decide_eq_true_iff, ← htest]
  simp [hi]

theorem IsSet.set (h : IsSet len array S) {i : Nat} (hi : i < len) :
    ∃ array', stdBitArraySet array i = .ok array' ∧ IsSet len array' (insert i S) := by
  apply h.changeByte (h.byte_lt hi)
  · intro k hk
    have hbit := h.testBit (show k / 8 < array.length by rw [hk]; exact h.byte_lt hi)
    simp only [hk] at hbit
    rw [testBit_or_bitMask _ _ (Nat.mod_lt _ (by decide)), hbit]
    have hsame : k % 8 = i % 8 ↔ k = i := by omega
    simp [hsame, or_comm]
  · intro k hk
    have hne : k ≠ i := fun heq => hk (by rw [heq])
    simp [hne]

theorem IsSet.clr (h : IsSet len array S) {i : Nat} (hi : i < len) :
    ∃ array', stdBitArrayClr array i = .ok array' ∧ IsSet len array' (S.erase i) := by
  apply h.changeByte (h.byte_lt hi)
  · intro k hk
    have hbit := h.testBit (show k / 8 < array.length by rw [hk]; exact h.byte_lt hi)
    simp only [hk] at hbit
    rw [testBit_clear_bitMask _ _ (Nat.mod_lt _ (by decide)), hbit]
    have hsame : k % 8 = i % 8 ↔ k = i := by omega
    simp [hsame, and_comm]
  · intro k hk
    have hne : k ≠ i := fun heq => hk (by rw [heq])
    simp [hne]

/-- The bytes before `ix` are complemented, those from `ix` on are to come. -/
theorem IsSet.complementBytes (count : Nat) : ∀ {ix : Nat} {array : List UInt8} {S : Finset Nat},
    IsSet len array S → ix + count ≤ array.length →
    ∃ array', complementLoop count ix array = .ok array' ∧
      IsSet len array' (symmDiff S (Finset.Ico (ix * 8) ((ix + count) * 8))) := by
  induction count with
  | zero =>
    intro ix array S h _
    refine ⟨array, rfl, ?_⟩
    rw [Nat.add_zero, Finset.Ico_self, ← Finset.bot_eq_empty, symmDiff_bot]
    exact h
  | succ count ih =>
    intro ix array S h hcount
    have hix : ix < array.length := by omega
    have hone : ∃ array₁, changeAt array ix (~~~ ·) = .ok array₁ ∧
        IsSet len array₁ (symmDiff S (Finset.Ico (ix * 8) ((ix + 1) * 8))) := by
      apply h.changeByte hix
      · intro k hk
        have hbit := h.testBit (show k / 8 < array.length by rw [hk]; exact hix)
        simp only [hk] at hbit
        have hin : ix * 8 ≤ k ∧ k < (ix + 1) * 8 := by omega
        rw [testBit_not _ (Nat.mod_lt _ (by decide)), hbit]
        simp [Finset.mem_symmDiff, hin]
      · intro k hk
        have hout : ¬ (ix * 8 ≤ k ∧ k < (ix + 1) * 8) := by omega
        simp [Finset.mem_symmDiff, hout]
    obtain ⟨array₁, hchange, h₁⟩ := hone
    obtain ⟨array', hloop, h'⟩ := @ih (ix + 1) _ _ h₁ (by rw [h₁.length, ← h.length]; omega)
    refine ⟨array', by rw [complementLoop, hchange, exec_bind_ok, hloop], ?_⟩
    have hunion : symmDiff (Finset.Ico (ix * 8) ((ix + 1) * 8))
        (Finset.Ico ((ix + 1) * 8) ((ix + 1 + count) * 8)) =
        Finset.Ico (ix * 8) ((ix + (count + 1)) * 8) := by
      ext k
      simp only [Finset.mem_symmDiff, Finset.mem_Ico]
      omega
    rwa [symmDiff_assoc, hunion] at h'

end Array

/-- What a change makes of a set of positions; a complement turns whole bytes over. -/
def Change.apply (S : Finset Nat) : Change → Finset Nat
  | set bitoffset => insert bitoffset S
  | clr bitoffset => S.erase bitoffset
  | complement mx => symmDiff S (Finset.range (stdBytesForBits mx * 8))

/-- The offsets the macros are documented for, and a complement of no more than the array. -/
def Change.Allowed (len : Nat) : Change → Prop
  | set bitoffset => bitoffset < len
  | clr bitoffset => bitoffset < len
  | complement mx => mx ≤ len

instance (len : Nat) : ∀ c : Change, Decidable (c.Allowed len)
  | .set bitoffset => inferInstanceAs (Decidable (bitoffset < len))
  | .clr bitoffset => inferInstanceAs (Decidable (bitoffset < len))
  | .complement mx => inferInstanceAs (Decidable (mx ≤ len))

section Runs

variable {len : Nat} {array : List UInt8} {S : Finset Nat}

theorem IsSet.call (h : IsSet len array S) (hlen : len < 2 ^ 31) {c : Change}
    (hc : c.Allowed len) : ∃ array', c.call array = .ok array' ∧ IsSet len array' (c.apply S) := by
  cases c with
  | set bitoffset => exact h.set hc
  | clr bitoffset => exact h.clr hc
  | complement mx =>
    have hmx : mx ≤ len := hc
    have hle : 0 + bittobytelen mx ≤ array.length := by
      rw [bittobytelen_eq (by omega), h.length]
      unfold stdBytesForBits
      split_ifs <;> omega
    obtain ⟨array', hloop, h'⟩ := h.complementBytes (bittobytelen mx) hle
    refine ⟨array', hloop, ?_⟩
    rwa [Nat.zero_mul, Nat.zero_add, bittobytelen_eq (by omega), ← Finset.range_eq_Ico] at h'

theorem IsSet.calls (cs : List Change) (hlen : len < 2 ^ 31) : ∀ {array : List UInt8}
    {S : Finset Nat}, IsSet len array S → (∀ c ∈ cs, c.Allowed len) →
    ∃ array', cs.foldlM (fun array c => c.call array) array = .ok array' ∧
      IsSet len array' (cs.foldl Change.apply S) := by
  induction cs with
  | nil =>
    intro array S h _
    exact ⟨array, rfl, h⟩
  | cons c cs ih =>
    intro array S h hcs
    obtain ⟨array₁, hcall, h₁⟩ := h.call hlen (hcs c List.mem_cons_self)
    obtain ⟨array', hcalls, h'⟩ := ih h₁ fun c' hc' => hcs c' (List.mem_cons_of_mem _ hc')
    exact ⟨array', by rw [List.foldlM_cons, hcall, exec_bind_ok, hcalls], h'⟩

theorem isSet_replicate_zero (len : Nat) :
    IsSet len (List.replicate (stdBytesForBits len) 0) ∅ := by
  refine ⟨List.length_replicate, fun i => ?_⟩
  rw [stdBitArrayTest_iff_testBit]
  simp

theorem isSet_replicate_ones (len : Nat) :
    IsSet len (List.replicate (stdBytesForBits len) 0xff)
      (Finset.range (stdBytesForBits len * 8)) := by
  refine ⟨List.length_replicate, fun i => ?_⟩
  have hones : ∀ j < 8, (0xff : UInt8).toNat.testBit j = true := by decide
  have hlt : i / 8 < stdBytesForBits len ↔ i < stdBytesForBits len * 8 := by omega
  rw [stdBitArrayTest_iff_testBit, Finset.mem_range, ← hlt]
  refine ⟨fun ⟨h, _⟩ => by rwa [List.length_replicate] at h,
    fun h => ⟨by rwa [List.length_replicate], ?_⟩⟩
  rw [List.getElem_replicate]
  exact hones (i % 8) (Nat.mod_lt _ (by decide))

/-- A change that is no complement keeps the positions below `len`. -/
theorem Change.apply_subset {c : Change} (hc : c.Allowed len) (hne : ∀ mx, c ≠ complement mx)
    (hS : S ⊆ Finset.range len) : c.apply S ⊆ Finset.range len := by
  cases c with
  | set bitoffset =>
    apply Finset.insert_subset (Finset.mem_range.mpr hc) hS
  | clr bitoffset => exact (Finset.erase_subset _ _).trans hS
  | complement mx => exact absurd rfl (hne mx)

theorem Change.applies_subset (cs : List Change) : ∀ {S : Finset Nat},
    (∀ c ∈ cs, c.Allowed len ∧ ∀ mx, c ≠ complement mx) → S ⊆ Finset.range len →
    cs.foldl apply S ⊆ Finset.range len := by
  induction cs with
  | nil => exact fun _ hS => hS
  | cons c cs ih =>
    intro S hcs hS
    obtain ⟨hc, hne⟩ := hcs c List.mem_cons_self
    exact ih (fun c' hc' => hcs c' (List.mem_cons_of_mem _ hc')) (apply_subset hc hne hS)

end Runs

/-- The array at the start, created with all bits set or with all bits clear. -/
def created (ones : Bool) (len : Nat) : Option (List UInt8) :=
  bif ones then stdBitmapCreateArray true len else stdBitmapCreateArrayClearBits true len

/-- The set at the start. -/
def createdSet (ones : Bool) (len : Nat) : Finset Nat :=
  bif ones then Finset.range (stdBytesForBits len * 8) else ∅

/-- The set after a sequence of changes. -/
def setAfter (ones : Bool) (len : Nat) (cs : List Change) : Finset Nat :=
  cs.foldl Change.apply (createdSet ones len)

theorem isSet_created (ones : Bool) {len : Nat} (hlen : len < 2 ^ 32) :
    ∃ array, created ones len = some array ∧ IsSet len array (createdSet ones len) := by
  unfold created stdBitmapCreateArray stdBitmapCreateArrayClearBits stdBitmapCreateArrayWithPattern
  rw [bittobytelen_eq hlen]
  cases ones with
  | true => exact ⟨_, rfl, isSet_replicate_ones len⟩
  | false => exact ⟨_, rfl, isSet_replicate_zero len⟩

/-- After any sequence of changes a bit array is the set of positions that the same changes make,
both searches answer from that set, and they are exact when the array was created clear and never
complemented. -/
theorem bit_array_is_set (ones : Bool) (len : Nat) (cs : List Change) (hlen : len < 2 ^ 31)
    (hcs : ∀ c ∈ cs, c.Allowed len) :
    ∃ array₀ array, created ones len = some array₀ ∧
      cs.foldlM (fun array c => c.call array) array₀ = .ok array ∧
      (∀ i, stdBitArrayTest array i ↔ i ∈ setAfter ones len cs) ∧
      (∀ fromBit < len,
        (∃ r, stdFindFirstBit array len fromBit = .ok r ∧
          FirstIn (· ∈ setAfter ones len cs) fromBit (stdBytesForBits len * 8) r) ∧
        ∃ r, stdFindLastBit array len fromBit = .ok r ∧
          LastIn (· ∈ setAfter ones len cs) (stdBytesForBits (len - fromBit) * 8) r) ∧
      (ones = false → (∀ c ∈ cs, ∀ mx, c ≠ .complement mx) →
        (∀ fromBit < len, ∃ r, stdFindFirstBit array len fromBit = .ok r ∧
          FirstIn (· ∈ setAfter ones len cs) fromBit len r) ∧
        (0 < len → ∃ r, stdFindLastBit array len 0 = .ok r ∧
          LastIn (· ∈ setAfter ones len cs) len r)) := by
  obtain ⟨array₀, hcreated, h₀⟩ := isSet_created ones (show len < 2 ^ 32 by omega)
  obtain ⟨array, hcalls, h⟩ := h₀.calls cs hlen hcs
  have hbytes : stdBytesForBits len ≤ array.length := h.length.ge
  have hset : stdBitArrayTest array = (· ∈ setAfter ones len cs) :=
    funext fun i => propext (h.test i)
  refine ⟨array₀, array, hcreated, hcalls, h.test, fun fromBit hfrom => ?_, fun hones hplain => ?_⟩
  · rw [← hset]
    exact ⟨stdFindFirstBit_finds hfrom hlen hbytes, stdFindLastBit_finds hfrom hlen hbytes⟩
  · subst hones
    have hsub : setAfter false len cs ⊆ Finset.range len :=
      Change.applies_subset cs (fun c hc => ⟨hcs c hc, hplain c hc⟩) (Finset.empty_subset _)
    have hpad : ∀ i, len ≤ i → i ∉ setAfter false len cs :=
      fun i hi hmem => by have := Finset.mem_range.mp (hsub hmem); omega
    have hcap := (stdBytesForBits_bounds len).1
    refine ⟨fun fromBit hfrom => ?_, fun hpos => ?_⟩
    · obtain ⟨r, hr, hfirst⟩ := stdFindFirstBit_finds hfrom hlen hbytes
      rw [hset] at hfirst
      exact ⟨r, hr, (hfirst.cut_iff hfrom.le hcap).mpr (.inr fun i hi _ => hpad i hi)⟩
    · obtain ⟨r, hr, hlast⟩ := stdFindLastBit_finds hpos hlen hbytes
      rw [hset, Nat.sub_zero] at hlast
      exact ⟨r, hr, (hlast.cut_iff hcap).mpr fun i hi _ => hpad i hi⟩

/-- The changes of an array of ten bits that was created clear. -/
def sampleChanges : List Change := [.set 3, .set 9, .set 0, .clr 3]

theorem bit_array_is_set_sample :
    ∃ array₀ array, created false 10 = some array₀ ∧
      sampleChanges.foldlM (fun array c => c.call array) array₀ = .ok array ∧
      (∀ i, stdBitArrayTest array i ↔ i ∈ ({0, 9} : Finset Nat)) ∧
      ∃ r, stdFindLastBit array 10 0 = .ok r ∧ LastIn (· ∈ ({0, 9} : Finset Nat)) 10 r := by
  have hset : setAfter false 10 sampleChanges = {0, 9} := by decide
  obtain ⟨array₀, array, hcreated, hcalls, htest, -, hexact⟩ :=
    bit_array_is_set false 10 sampleChanges (by decide) (by decide)
  rw [hset] at htest hexact
  have hplain : ∀ c ∈ sampleChanges, ∀ mx, c ≠ .complement mx := by simp [sampleChanges]
  exact ⟨array₀, array, hcreated, hcalls, htest, (hexact rfl hplain).2 (by decide)⟩

end OpxCommonUtils.Bits
