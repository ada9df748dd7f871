import OpxCommonUtils.Bits.Search
import OpxCommonUtils.Misc.Search
import Mathlib.Data.Nat.Bitwise

/-!
# What the bit searches find

Both searches are exact on whole bytes. The last byte of `std_find_first_bit` and the byte in which
`std_find_last_bit` begins are not cut down to the bits asked for, which makes the conditions of the
two main results.
-/

namespace OpxCommonUtils.Bits

theorem readAt_of_lt {α : Type} {array : List α} {ix : Nat} (h : ix < array.length) :
    readAt array ix = .ok array[ix] := by
  unfold readAt
  rw [List.getElem?_eq_getElem h]

theorem sizeToInt_of_lt {n : Nat} (h : n < 2 ^ 31) : sizeToInt n = n := by
  unfold sizeToInt
  rw [Int.bmod_def]
  omega

theorem lowestBit_eq : lowestBit = (List.range 256).map
    fun b => ((List.range 8).find? b.testBit).elim 0 (· + 1) := by
  decide +kernel

theorem highestBit_eq :
    highestBit = (List.range 256).map fun b => if b = 0 then 0 else b.log2 + 1 := by
  decide +kernel

/-- The entry of the table of lowest bits, for any byte. -/
theorem readAt_lowestBit {b : Nat} (hb : b < 256) :
    ∃ pos, readAt lowestBit b = .ok pos ∧ FirstIn (fun j => b.testBit j) 0 8 ((pos : Int) - 1) := by
  have hread : readAt lowestBit b = .ok (((List.range 8).find? b.testBit).elim 0 (· + 1)) := by
    unfold readAt
    rw [lowestBit_eq, List.getElem?_map, List.getElem?_range hb]
    rfl
  refine ⟨_, hread, ?_⟩
  cases hfind : (List.range 8).find? b.testBit with
  | none =>
    refine .inr ⟨rfl, fun j _ hj => ?_⟩
    have := List.find?_range_eq_none.mp hfind j hj
    simpa using this
  | some k =>
    obtain ⟨hk, hmem, hbefore⟩ := List.find?_range_eq_some.mp hfind
    refine .inl ⟨k, by simp, Nat.zero_le k, List.mem_range.mp hmem, hk, fun j _ hj => ?_⟩
    have := hbefore j hj
    simpa using this

/-- The entry of the table of highest bits, for any byte. -/
theorem readAt_highestBit {b : Nat} (hb : b < 256) :
    ∃ pos, readAt highestBit b = .ok pos ∧ LastIn (fun j => b.testBit j) 8 ((pos : Int) - 1) := by
  have hread : readAt highestBit b = .ok (if b = 0 then 0 else b.log2 + 1) := by
    unfold readAt
    rw [highestBit_eq, List.getElem?_map, List.getElem?_range hb]
    rfl
  refine ⟨_, hread, ?_⟩
  by_cases hzero : b = 0
  · rw [if_pos hzero]
    exact .inr ⟨rfl, fun j _ => by simp [hzero]⟩
  · rw [if_neg hzero]
    refine .inl ⟨b.log2, by simp, (Nat.log2_lt hzero).mpr hb, Nat.testBit_log2 hzero,
      fun j hj _ => ?_⟩
    have hlt : b < 2 ^ j := (Nat.log2_lt hzero).mp hj
    simp [Nat.testBit_lt_two_pow hlt]

/-- The byte with the bits below `fromBit` masked out. -/
theorem stdFindFirstBit8_spec {b fromBit : Nat} (hb : b < 256) (hfrom : fromBit < 8) :
    ∃ pos, stdFindFirstBit8 b fromBit = .ok pos ∧
      FirstIn (fun j => b.testBit j) fromBit 8 ((pos : Int) - 1) := by
  have hle : b &&& ((2 ^ 32 - 1) <<< fromBit) % 2 ^ 32 < 256 :=
    Nat.lt_of_le_of_lt Nat.and_le_left hb
  obtain ⟨pos, hread, hfirst⟩ := readAt_lowestBit hle
  have hbit : ∀ j, j < 8 → ((b &&& ((2 ^ 32 - 1) <<< fromBit) % 2 ^ 32).testBit j =
      (b.testBit j && decide (fromBit ≤ j))) := by
    intro j hj
    rw [Nat.testBit_and, Nat.testBit_mod_two_pow, Nat.testBit_shiftLeft,
      Nat.testBit_two_pow_sub_one]
    have h32 : j < 32 := by omega
    have hsub : j - fromBit < 32 := by omega
    simp [h32, hsub]
  refine ⟨pos, hread, ?_⟩
  rcases hfirst with ⟨i, hi, -, h8, hset, hbefore⟩ | ⟨hr, hnone⟩
  · rw [hbit i h8, Bool.and_eq_true, decide_eq_true_iff] at hset
    refine .inl ⟨i, hi, hset.2, h8, hset.1, fun j hj hji hset' => ?_⟩
    apply hbefore j (Nat.zero_le j) hji
    rw [hbit j (by omega), hset']
    simp [hj]
  · refine .inr ⟨hr, fun j hj h8 hset => ?_⟩
    apply hnone j (Nat.zero_le j) h8
    rw [hbit j h8, hset]
    simp [hj]

/-- The mask of `std_find_last_bit8` keeps all bits of a byte. -/
theorem stdFindLastBit8_spec {b fromBit : Nat} (hb : b < 256) (hfrom : fromBit < 8) :
    ∃ pos, stdFindLastBit8 b fromBit = .ok pos ∧
      LastIn (fun j => b.testBit j) 8 ((pos : Int) - 1) := by
  have hmask : b &&& (2 ^ 32 - 1) >>> fromBit = b := by
    apply Nat.eq_of_testBit_eq
    intro j
    rw [Nat.testBit_and, Nat.testBit_shiftRight, Nat.testBit_two_pow_sub_one]
    rcases Nat.lt_or_ge j 8 with hj | hj
    · have h32 : fromBit + j < 32 := by omega
      simp [h32]
    · have hlt : b < 2 ^ j := Nat.lt_of_lt_of_le hb (Nat.pow_le_pow_right Nat.two_pos hj)
      rw [Nat.testBit_lt_two_pow hlt]
      rfl
  unfold stdFindLastBit8
  dsimp only
  rw [hmask]
  exact readAt_highestBit hb

section Array

variable {array : List UInt8}

/-- Bit `j` of byte `ix` of the array. -/
theorem stdBitArrayTest_iff {ix j : Nat} (hix : ix < array.length) (hj : j < 8) :
    stdBitArrayTest array (j + ix * 8) ↔ array[ix].toNat.testBit j = true := by
  have hdiv : (j + ix * 8) / 8 = ix := by omega
  have hmod : (j + ix * 8) % 8 = j := by omega
  unfold stdBitArrayTest
  rw [hdiv, hmod, List.getD_eq_getElem?_getD, List.getElem?_eq_getElem hix, Option.getD_some,
    Nat.one_shiftLeft, Nat.and_two_pow]
  cases array[ix].toNat.testBit j <;> simp

/-- What is found in byte `ix` is found in the array, in the bits of that byte. -/
theorem firstIn_byte (hi : Nat) {ix lo pos : Nat} (hix : ix < array.length)
    (h : FirstIn (fun j => array[ix].toNat.testBit j) lo 8 ((pos : Int) - 1)) (hpos : pos ≠ 0)
    (hhi : (ix + 1) * 8 ≤ hi) (hint : (ix + 1) * 8 ≤ 2 ^ 31) :
    FirstIn (stdBitArrayTest array) (lo + ix * 8) hi (sizeToInt (pos - 1 + ix * 8)) := by
  rcases h with ⟨i, hi, h1, h2, h3, h4⟩ | ⟨hr, -⟩
  · have hpi : pos - 1 = i := by omega
    rw [hpi, sizeToInt_of_lt (by omega)]
    refine .inl ⟨i + ix * 8, rfl, by omega, by omega, (stdBitArrayTest_iff hix h2).mpr h3,
      fun j hj hji hset => ?_⟩
    have hj' : j = (j - ix * 8) + ix * 8 := by omega
    rw [hj', stdBitArrayTest_iff hix (by omega)] at hset
    exact h4 (j - ix * 8) (by omega) (by omega) hset
  · omega

theorem lastIn_byte {ix pos : Nat} (hix : ix < array.length)
    (h : LastIn (fun j => array[ix].toNat.testBit j) 8 ((pos : Int) - 1)) (hpos : pos ≠ 0)
    (hint : (ix + 1) * 8 ≤ 2 ^ 31) :
    LastIn (stdBitArrayTest array) ((ix + 1) * 8) (sizeToInt (pos - 1 + ix * 8)) := by
  rcases h with ⟨i, hi, h1, h2, h3⟩ | ⟨hr, -⟩
  · have hpi : pos - 1 = i := by omega
    rw [hpi, sizeToInt_of_lt (by omega)]
    refine .inl ⟨i + ix * 8, rfl, by omega, (stdBitArrayTest_iff hix h1).mpr h2,
      fun j hj hji hset => ?_⟩
    have hj' : j = (j - ix * 8) + ix * 8 := by omega
    rw [hj', stdBitArrayTest_iff hix (by omega)] at hset
    exact h3 (j - ix * 8) (by omega) (by omega) hset
  · omega

/-- Nothing in the byte, nothing in its bits of the array. -/
theorem not_test_of_byte (lo : Nat) {ix : Nat} (hix : ix < array.length)
    (h : ∀ j, lo ≤ j → j < 8 → ¬ array[ix].toNat.testBit j) :
    ∀ j, lo + ix * 8 ≤ j → j < (ix + 1) * 8 → ¬ stdBitArrayTest array j := by
  intro j hj hji hset
  have hj' : j = (j - ix * 8) + ix * 8 := by omega
  rw [hj', stdBitArrayTest_iff hix (by omega)] at hset
  exact h (j - ix * 8) (by omega) (by omega) hset

theorem not_test_of_zero {ix : Nat} (hix : ix < array.length) (h : array[ix] = 0) :
    ∀ j, ix * 8 ≤ j → j < (ix + 1) * 8 → ¬ stdBitArrayTest array j := by
  have hnone := not_test_of_byte 0 hix fun j _ _ => by simp [h]
  rwa [Nat.zero_add] at hnone

/-- A byte that is not 0 has a bit, and the tables know it. -/
theorem pos_ne_zero {b : UInt8} (hb : b ≠ 0) {pos : Nat}
    (h : ∀ j, j < 8 → b.toNat.testBit j = true → (pos : Int) - 1 ≠ -1) : pos ≠ 0 := by
  have hnat : b.toNat ≠ 0 := fun h0 => hb (UInt8.toNat_inj.mp h0)
  have := h b.toNat.log2 ((Nat.log2_lt hnat).mpr b.toNat_lt) (Nat.testBit_log2 hnat)
  omega

theorem findFirstLoop_spec (count ix : Nat) (harray : ix + count ≤ array.length)
    (hint : (ix + count) * 8 ≤ 2 ^ 31) :
    ∃ r, findFirstLoop array count ix = .ok r ∧
      FirstIn (stdBitArrayTest array) (ix * 8) ((ix + count) * 8) r := by
  induction count generalizing ix with
  | zero => exact ⟨-1, rfl, .empty (by omega)⟩
  | succ count ih =>
    have hix : ix < array.length := by omega
    rw [findFirstLoop, readAt_of_lt hix, exec_bind_ok]
    by_cases hzero : array[ix] = 0
    · rw [if_pos hzero]
      obtain ⟨r, hr, hfirst⟩ := ih (ix + 1) (by omega) (by omega)
      refine ⟨r, hr, ?_⟩
      rw [show ix + 1 + count = ix + (count + 1) by omega] at hfirst
      exact hfirst.skip (by omega) (not_test_of_zero hix hzero)
    · rw [if_neg hzero]
      obtain ⟨pos, hpos, hfirst⟩ := stdFindFirstBit8_spec array[ix].toNat_lt (show 0 < 8 by decide)
      rw [hpos, exec_bind_ok]
      refine ⟨_, rfl, ?_⟩
      have hne : pos ≠ 0 := by
        apply pos_ne_zero hzero
        intro j hj hset hr
        rw [hr] at hfirst
        rcases hfirst with ⟨i, hi, -⟩ | ⟨-, hnone⟩
        · omega
        · exact hnone j (Nat.zero_le j) hj hset
      have := firstIn_byte ((ix + (count + 1)) * 8) hix hfirst hne (by omega) (by omega)
      rwa [Nat.zero_add] at this

theorem findLastLoop_spec {count : Nat} (harray : count ≤ array.length)
    (hint : count * 8 ≤ 2 ^ 31) :
    ∃ r, findLastLoop array count = .ok r ∧ LastIn (stdBitArrayTest array) (count * 8) r := by
  induction count with
  | zero => exact ⟨-1, rfl, .none fun j hj => by omega⟩
  | succ ix ih =>
    have hix : ix < array.length := by omega
    rw [findLastLoop, readAt_of_lt hix, exec_bind_ok]
    by_cases hzero : array[ix] = 0
    · rw [if_neg (not_not_intro hzero)]
      obtain ⟨r, hr, hlast⟩ := ih (by omega) (by omega)
      exact ⟨r, hr, hlast.skip (by omega) (not_test_of_zero hix hzero)⟩
    · rw [if_pos hzero]
      obtain ⟨pos, hpos, hlast⟩ := stdFindLastBit8_spec array[ix].toNat_lt (show 0 < 8 by decide)
      rw [hpos, exec_bind_ok]
      refine ⟨_, rfl, lastIn_byte hix hlast ?_ hint⟩
      apply pos_ne_zero hzero
      intro j hj hset hr
      rw [hr] at hlast
      rcases hlast with ⟨i, hi, -⟩ | ⟨-, hnone⟩
      · omega
      · exact hnone j hj hset

theorem stdBytesForBits_eq (n : Nat) :
    stdBytesForBits n = n / 8 + if n % 8 ≠ 0 then 1 else 0 := by
  unfold stdBytesForBits
  by_cases h : n % 8 = 0 <;> simp [h, Nat.add_comm]

theorem stdBytesForBits_bounds (n : Nat) :
    n ≤ stdBytesForBits n * 8 ∧ stdBytesForBits n * 8 < n + 8 := by
  unfold stdBytesForBits
  split <;> omega

/-- The search looks at all bits of the bytes that hold the array, also at those behind `len`. -/
theorem stdFindFirstBit_finds {len fromBit : Nat} (hfrom : fromBit < len) (hlen : len < 2 ^ 31)
    (harray : stdBytesForBits len ≤ array.length) :
    ∃ r, stdFindFirstBit array len fromBit = .ok r ∧
      FirstIn (stdBitArrayTest array) fromBit (stdBytesForBits len * 8) r := by
  obtain ⟨hle, hlt⟩ := stdBytesForBits_bounds len
  unfold stdFindFirstBit
  rw [if_neg (by omega), ← stdBytesForBits_eq]
  generalize stdBytesForBits len = mx at hle hlt harray ⊢
  have hix : fromBit / 8 < array.length := by omega
  dsimp only
  by_cases hbit : fromBit % 8 = 0
  · -- The search begins at a whole byte.
    rw [if_neg (not_not_intro hbit)]
    obtain ⟨r, hr, hfirst⟩ := findFirstLoop_spec (mx - fromBit / 8) (fromBit / 8)
      (show _ ≤ array.length by omega) (by omega)
    refine ⟨r, hr, ?_⟩
    rwa [show fromBit / 8 * 8 = fromBit by omega,
      show fromBit / 8 + (mx - fromBit / 8) = mx by omega] at hfirst
  · rw [if_pos hbit, readAt_of_lt hix, exec_bind_ok]
    obtain ⟨pos, hpos, hfirst⟩ := stdFindFirstBit8_spec array[fromBit / 8].toNat_lt
      (show fromBit % 8 < 8 by omega)
    rw [hpos, exec_bind_ok]
    by_cases hzero : pos = 0
    · rw [if_neg (not_not_intro hzero)]
      have hnone : ∀ j, fromBit % 8 ≤ j → j < 8 → ¬ array[fromBit / 8].toNat.testBit j := by
        rcases hfirst with ⟨i, hi, -⟩ | ⟨-, hnone⟩
        · omega
        · exact hnone
      have hskip := not_test_of_byte _ hix hnone
      obtain ⟨r, hr, hrest⟩ := findFirstLoop_spec (mx - (fromBit / 8 + 1))
        (fromBit / 8 + 1) (show _ ≤ array.length by omega) (by omega)
      refine ⟨r, hr, ?_⟩
      rw [show fromBit / 8 + 1 + (mx - (fromBit / 8 + 1)) = mx by omega] at hrest
      rw [show fromBit % 8 + fromBit / 8 * 8 = fromBit by omega] at hskip
      exact hrest.skip (by omega) hskip
    · rw [if_pos hzero]
      refine ⟨_, rfl, ?_⟩
      have := firstIn_byte (mx * 8) hix hfirst hzero (by omega) (by omega)
      rwa [show fromBit % 8 + fromBit / 8 * 8 = fromBit by omega] at this

/-- The search looks at all bits of the byte in which it begins. -/
theorem stdFindLastBit_finds {len fromBit : Nat} (hfrom : fromBit < len) (hlen : len < 2 ^ 31)
    (harray : stdBytesForBits len ≤ array.length) :
    ∃ r, stdFindLastBit array len fromBit = .ok r ∧
      LastIn (stdBitArrayTest array) (stdBytesForBits (len - fromBit) * 8) r := by
  have hlenBounds := stdBytesForBits_bounds len
  obtain ⟨hle, hlt⟩ := stdBytesForBits_bounds (len - fromBit)
  unfold stdFindLastBit
  rw [if_neg (by omega)]
  dsimp only
  rw [← stdBytesForBits_eq]
  generalize stdBytesForBits (len - fromBit) = mx at hle hlt ⊢
  obtain ⟨ix, rfl⟩ : ∃ ix, mx = ix + 1 := ⟨mx - 1, by omega⟩
  have hix : ix < array.length := by omega
  rw [if_neg (by omega), Nat.add_sub_cancel]
  by_cases hbit : (len - fromBit) % 8 = 0
  · rw [if_neg (not_not_intro hbit)]
    exact findLastLoop_spec (by omega) (by omega)
  · rw [if_pos hbit, readAt_of_lt hix, exec_bind_ok]
    obtain ⟨pos, hpos, hlast⟩ := stdFindLastBit8_spec array[ix].toNat_lt
      (show (len - fromBit) % 8 < 8 by omega)
    rw [hpos, exec_bind_ok]
    by_cases hzero : pos = 0
    · rw [if_neg (not_not_intro hzero)]
      have hnone : ∀ j, 0 ≤ j → j < 8 → ¬ array[ix].toNat.testBit j := by
        rcases hlast with ⟨i, hi, -⟩ | ⟨-, hnone⟩
        · omega
        · exact fun j _ => hnone j
      have hskip := not_test_of_byte _ hix hnone
      rw [Nat.zero_add] at hskip
      -- Also in the first byte the search would go on with nothing left.
      have hrest : ∃ r, (if ix = 0 then pure (-1) else findLastLoop array ix) = Except.ok r ∧
          LastIn (stdBitArrayTest array) (ix * 8) r := by
        by_cases hfirst : ix = 0
        · rw [if_pos hfirst]
          exact ⟨-1, rfl, .none fun j hj => by omega⟩
        · rw [if_neg hfirst]
          exact findLastLoop_spec (by omega) (by omega)
      obtain ⟨r, hr, hlast⟩ := hrest
      exact ⟨r, hr, hlast.skip (by omega) hskip⟩
    · rw [if_pos hzero]
      exact ⟨_, rfl, lastIn_byte hix hlast hzero (by omega)⟩

end Array

/-- The search for the first bit is exact if and only if it begins behind the end, there is a bit to
be found, or no bit is set behind the end in the last byte. -/
theorem stdFindFirstBit_exact_iff (array : List UInt8) (len fromBit : Nat) (hlen : len < 2 ^ 31)
    (harray : stdBytesForBits len ≤ array.length) :
    (∃ r, stdFindFirstBit array len fromBit = .ok r ∧
        FirstIn (stdBitArrayTest array) fromBit len r) ↔
      len ≤ fromBit ∨ (∃ i, fromBit ≤ i ∧ i < len ∧ stdBitArrayTest array i) ∨
        ∀ i, len ≤ i → i < stdBytesForBits len * 8 → ¬ stdBitArrayTest array i := by
  rcases Nat.lt_or_ge fromBit len with hfrom | hfrom
  · obtain ⟨r, hr, hfirst⟩ := stdFindFirstBit_finds hfrom hlen harray
    have hcut := hfirst.cut_iff (by omega) (stdBytesForBits_bounds len).1
    constructor
    · rintro ⟨r', hr', hexact⟩
      rw [hr] at hr'
      cases hr'
      exact .inr (hcut.mp hexact)
    · rintro (h | h)
      · omega
      · exact ⟨r, hr, hcut.mpr h⟩
  · refine ⟨fun _ => .inl hfrom, fun _ => ⟨-1, ?_, .empty hfrom⟩⟩
    unfold stdFindFirstBit
    rw [if_pos hfrom]
    rfl

theorem stdFindFirstBit_exact_iff_sample :
    (∃ r, stdFindFirstBit [0x60] 6 0 = .ok r ∧ FirstIn (stdBitArrayTest [0x60]) 0 6 r) ↔
      6 ≤ 0 ∨ (∃ i, 0 ≤ i ∧ i < 6 ∧ stdBitArrayTest [0x60] i) ∨
        ∀ i, 6 ≤ i → i < stdBytesForBits 6 * 8 → ¬ stdBitArrayTest [0x60] i :=
  stdFindFirstBit_exact_iff [0x60] 6 0 (by decide) (by decide)

/-- In an array of three bits that are clear, with the other bits of the byte as
`std_bitmap_create_array` sets them, bit 3 is found. -/
theorem stdFindFirstBit_behind_end :
    ¬ ∃ r, stdFindFirstBit [0xf8] 3 0 = .ok r ∧ FirstIn (stdBitArrayTest [0xf8]) 0 3 r := by
  rintro ⟨r, hr, hfirst⟩
  have hfound : stdFindFirstBit [0xf8] 3 0 = .ok 3 := by decide
  rw [hfound] at hr
  cases hr
  rcases hfirst with ⟨i, hi, -, hlt, -⟩ | ⟨hnone, -⟩ <;> omega

/-- The search for the last bit ends without a fault, so also without a lookup outside the table,
and is exact if and only if no bit from `len - from` on is set in the byte of that bit. -/
theorem stdFindLastBit_exact_iff (array : List UInt8) (len fromBit : Nat) (hlen : len < 2 ^ 31)
    (hfrom : fromBit < len) (harray : stdBytesForBits len ≤ array.length) :
    (∃ r, stdFindLastBit array len fromBit = .ok r) ∧
      ((∃ r, stdFindLastBit array len fromBit = .ok r ∧
          LastIn (stdBitArrayTest array) (len - fromBit) r) ↔
        ∀ i, len - fromBit ≤ i → i < stdBytesForBits (len - fromBit) * 8 →
          ¬ stdBitArrayTest array i) := by
  obtain ⟨r, hr, hlast⟩ := stdFindLastBit_finds hfrom hlen harray
  have hcut := hlast.cut_iff (stdBytesForBits_bounds (len - fromBit)).1
  refine ⟨⟨r, hr⟩, ?_, fun h => ⟨r, hr, hcut.mpr h⟩⟩
  rintro ⟨r', hr', hexact⟩
  rw [hr] at hr'
  cases hr'
  exact hcut.mp hexact

theorem stdFindLastBit_exact_iff_sample :
    (∃ r, stdFindLastBit [0x05] 8 3 = .ok r) ∧
      ((∃ r, stdFindLastBit [0x05] 8 3 = .ok r ∧
          LastIn (stdBitArrayTest [0x05]) (8 - 3) r) ↔
        ∀ i, 8 - 3 ≤ i → i < stdBytesForBits (8 - 3) * 8 → ¬ stdBitArrayTest [0x05] i) :=
  stdFindLastBit_exact_iff [0x05] 8 3 (by decide) (by decide) (by decide)

/-- Of eight bits the seven highest are to be skipped, but bit 7 is found. -/
theorem stdFindLastBit_skipped :
    ¬ ∃ r, stdFindLastBit [0x80] 8 7 = .ok r ∧ LastIn (stdBitArrayTest [0x80]) (8 - 7) r := by
  rintro ⟨r, hr, hlast⟩
  have hfound : stdFindLastBit [0x80] 8 7 = .ok 7 := by decide
  rw [hfound] at hr
  cases hr
  rcases hlast with ⟨i, hi, hlt, -⟩ | ⟨hnone, -⟩ <;> omega

end OpxCommonUtils.Bits
