import OpxCommonUtils.Radix.Table

/-!
# Comparing addresses (`src/std_radix.c`)

`rdxCompareAddress` compares the bits before a bit number and `dbitLoop` finds the first bit in
which two addresses differ, a byte at a time through a table. Both are related to the bit
streams of the addresses. The loop counter is a `ushort`, so the loop comes to an end on all
lengths up to 65528; beyond, two addresses that agree in 8192 bytes send it round for ever. A
table is documented to take keys of at most 256 bits.
-/

namespace OpxCommonUtils.Radix

/-- `first_bit_set` (`std_radix.c:114-136`): the position of the most significant bit. -/
def firstBitSetTable : List Nat := [
    8, 7, 6, 6, 5, 5, 5, 5, 4, 4, 4, 4, 4, 4, 4, 4,
    3, 3, 3, 3, 3, 3, 3, 3, 3, 3, 3, 3, 3, 3, 3, 3,
    2, 2, 2, 2, 2, 2, 2, 2, 2, 2, 2, 2, 2, 2, 2, 2,
    2, 2, 2, 2, 2, 2, 2, 2, 2, 2, 2, 2, 2, 2, 2, 2,
    1, 1, 1, 1, 1, 1, 1, 1, 1, 1, 1, 1, 1, 1, 1, 1,
    1, 1, 1, 1, 1, 1, 1, 1, 1, 1, 1, 1, 1, 1, 1, 1,
    1, 1, 1, 1, 1, 1, 1, 1, 1, 1, 1, 1, 1, 1, 1, 1,
    1, 1, 1, 1, 1, 1, 1, 1, 1, 1, 1, 1, 1, 1, 1, 1,
    0, 0, 0, 0, 0, 0, 0, 0, 0, 0, 0, 0, 0, 0, 0, 0,
    0, 0, 0, 0, 0, 0, 0, 0, 0, 0, 0, 0, 0, 0, 0, 0,
    0, 0, 0, 0, 0, 0, 0, 0, 0, 0, 0, 0, 0, 0, 0, 0,
    0, 0, 0, 0, 0, 0, 0, 0, 0, 0, 0, 0, 0, 0, 0, 0,
    0, 0, 0, 0, 0, 0, 0, 0, 0, 0, 0, 0, 0, 0, 0, 0,
    0, 0, 0, 0, 0, 0, 0, 0, 0, 0, 0, 0, 0, 0, 0, 0,
    0, 0, 0, 0, 0, 0, 0, 0, 0, 0, 0, 0, 0, 0, 0, 0,
    0, 0, 0, 0, 0, 0, 0, 0, 0, 0, 0, 0, 0, 0, 0, 0]

/-- A lookup in `first_bit_set`. -/
def firstBitSet (b : UInt8) : Nat := firstBitSetTable.getD b.toNat 8

/-- `memcmp(ap1, ap2, n)` is nonzero. -/
def memDiffer (ap1 ap2 : Addr) (n : Nat) : Bool := (List.range n).any fun i => ap1 i != ap2 i

/-- `rdx_compare_address` (`std_radix.c:154-166`): the addresses differ before bit `tbit` of byte
`tbyte`. -/
def rdxCompareAddress (ap1 ap2 : Addr) (tbyte : Nat) (tbit : UInt8) : Bool :=
  let mask := ~~~(tbit ||| (tbit - 1))
  if (ap1 tbyte ^^^ ap2 tbyte) &&& mask != 0 then true
  else tbyte != 0 && memDiffer ap1 ap2 tbyte

/-- The loop that looks for the first different bit (`std_radix.c:695-701` and `925-931`). -/
def dbitLoop (addr hisAddr : Addr) (bits2chk : Nat) : Nat → Nat → Exec Nat
  | 0, _ => .error .diverges
  | fuel + 1, dbit =>
    if dbit < bits2chk then
      let i := dbit >>> 3
      if addr i != hisAddr i then
        .ok ((dbit + firstBitSet (addr i ^^^ hisAddr i)) % 2 ^ 16)
      else dbitLoop addr hisAddr bits2chk fuel ((dbit + 8) % 2 ^ 16)
    else .ok dbit

/-- `dbit` after the loop. The counter takes 8192 values before it comes back to 0, so a loop of
more rounds never ends. -/
def dbitOf (addr hisAddr : Addr) (bits2chk : Nat) : Exec Nat :=
  dbitLoop addr hisAddr bits2chk 8193 0

/-! ## Bytes and bits -/

theorem mask_bits (z : UInt8) (j : Nat) (hj : j < 8) :
    (z &&& ~~~((0x80 >>> UInt8.ofNat j) ||| ((0x80 >>> UInt8.ofNat j) - 1)) != 0) =
      (List.range j).any (fun t => z.toNat.testBit (7 - t)) := by
  have hall : ∀ (i : Fin 256) (j : Fin 8),
      ((⟨⟨i⟩⟩ : UInt8) &&& ~~~((0x80 >>> UInt8.ofNat j) ||| ((0x80 >>> UInt8.ofNat j) - 1)) != 0)
        = (List.range j).any (fun t => i.val.testBit (7 - t)) := by decide +kernel
  exact hall z.toFin ⟨j, hj⟩

theorem firstBitSet_spec (z : UInt8) (hz : z ≠ 0) :
    firstBitSet z < 8 ∧ (∀ t < firstBitSet z, z.toNat.testBit (7 - t) = false) ∧
      z.toNat.testBit (7 - firstBitSet z) = true := by
  have hall : ∀ i : Fin 256, (⟨⟨i⟩⟩ : UInt8) ≠ 0 → firstBitSet ⟨⟨i⟩⟩ < 8 ∧
      (∀ t < firstBitSet ⟨⟨i⟩⟩, i.val.testBit (7 - t) = false) ∧
        i.val.testBit (7 - firstBitSet ⟨⟨i⟩⟩) = true := by decide +kernel
  exact hall z.toFin hz

theorem testBit_xor_byte (x y : UInt8) (t : Nat) :
    (x ^^^ y).toNat.testBit t = (x.toNat.testBit t ^^ y.toNat.testBit t) := by
  rw [UInt8.toNat_xor, Nat.testBit_xor]

theorem memDiffer_eq_false {a b : Addr} {n : Nat} :
    memDiffer a b n = false ↔ ∀ i < n, a i = b i := by
  simp [memDiffer]

/-- The comparison decides whether the first `n` bits agree. -/
theorem rdxCompareAddress_eq_false (a b : Addr) (n : Nat) :
    rdxCompareAddress a b (rnbyte n) (rnbit n) = false ↔
      firstBits (bitAt a) n = firstBits (bitAt b) n := by
  have hj : n % 8 < 8 := Nat.mod_lt _ (by decide)
  have hn : n = 8 * (n / 8) + n % 8 := by omega
  have hlow : (((a (n / 8) ^^^ b (n / 8)) &&&
      ~~~((0x80 >>> UInt8.ofNat (n % 8)) ||| ((0x80 >>> UInt8.ofNat (n % 8)) - 1)) != 0) = false) ↔
      ∀ t < n % 8, bitAt a (8 * (n / 8) + t) = bitAt b (8 * (n / 8) + t) := by
    rw [mask_bits _ _ hj, List.any_eq_false]
    simp only [List.mem_range, testBit_xor_byte]
    refine forall₂_congr fun t ht => ?_
    rw [bitAt_byte a _ t (by omega), bitAt_byte b _ t (by omega)]
    simp
  have hhigh : (n / 8 != 0 && memDiffer a b (n / 8)) = false ↔ ∀ i < n / 8, a i = b i := by
    rw [← memDiffer_eq_false]
    by_cases h0 : n / 8 = 0
    · simp [h0, memDiffer]
    · simp [h0]
  have hcmp : rdxCompareAddress a b (rnbyte n) (rnbit n) = false ↔
      (∀ t < n % 8, bitAt a (8 * (n / 8) + t) = bitAt b (8 * (n / 8) + t)) ∧
        ∀ i < n / 8, a i = b i := by
    have hor : ∀ x y : Bool, (if x = true then true else y) = false ↔ x = false ∧ y = false := by
      decide
    rw [← hlow, ← hhigh, rdxCompareAddress, rnbyte_eq, rnbit, and_seven]
    exact hor _ _
  rw [hcmp, firstBits_eq_iff]
  constructor
  · rintro ⟨hbits, hbytes⟩ i hi
    rcases Nat.lt_or_ge (i / 8) (n / 8) with hlt | hge
    · rw [bitAt, bitAt, hbytes _ hlt]
    · have hi8 : i = 8 * (n / 8) + i % 8 := by omega
      rw [hi8]
      exact hbits _ (by omega)
  · intro h
    refine ⟨fun t ht => h _ (by omega), fun i hi => ?_⟩
    rw [byte_eq_iff]
    exact fun j hj => h _ (by omega)

/-! ## The first different bit -/

/-- `d` is where `dbitLoop` may stop: everything before agrees, and `d` itself does not unless
the checked bits are exhausted. -/
def FirstDiff (a b : Addr) (m d : Nat) : Prop :=
  (∀ i < d, bitAt a i = bitAt b i) ∧ (d < m → bitAt a d ≠ bitAt b d)

theorem firstDiff_of_byte {a b : Addr} {dbit m : Nat} (h8 : dbit % 8 = 0)
    (hagree : ∀ i < dbit, bitAt a i = bitAt b i) (hne : a (dbit / 8) ≠ b (dbit / 8)) :
    firstBitSet (a (dbit / 8) ^^^ b (dbit / 8)) < 8 ∧
      FirstDiff a b m (dbit + firstBitSet (a (dbit / 8) ^^^ b (dbit / 8))) := by
  have hx : a (dbit / 8) ^^^ b (dbit / 8) ≠ 0 := by
    intro hx
    exact hne (by simpa [← UInt8.toNat_inj, Nat.xor_eq_zero_iff] using hx)
  obtain ⟨hlt, hzero, hone⟩ := firstBitSet_spec _ hx
  have hbase : dbit = 8 * (dbit / 8) := by omega
  refine ⟨hlt, ?_, fun _ => ?_⟩
  · intro i hi
    rcases Nat.lt_or_ge i dbit with hid | hid
    · exact hagree i hid
    · have hi8 : i = 8 * (dbit / 8) + (i - dbit) := by omega
      have hz := hzero (i - dbit) (by omega)
      rw [testBit_xor_byte] at hz
      rw [hi8, bitAt_byte a _ _ (by omega), bitAt_byte b _ _ (by omega)]
      simpa using hz
  · rw [testBit_xor_byte] at hone
    generalize firstBitSet (a (dbit / 8) ^^^ b (dbit / 8)) = t at hlt hone
    have ht : dbit + t = 8 * (dbit / 8) + t := by omega
    rw [ht, bitAt_byte a _ _ hlt, bitAt_byte b _ _ hlt]
    intro heq
    rw [heq] at hone
    simp at hone

/-- Where the loop stops it has found the first difference. -/
theorem dbitLoop_spec (a b : Addr) (m : Nat) : ∀ (fuel dbit : Nat), dbit % 8 = 0 →
    dbit < 2 ^ 16 → (∀ i < dbit, bitAt a i = bitAt b i) →
    dbitLoop a b m fuel dbit = .error .diverges ∨
      ∃ d, dbitLoop a b m fuel dbit = .ok d ∧ FirstDiff a b m d := by
  intro fuel
  induction fuel with
  | zero => exact fun _ _ _ _ => .inl rfl
  | succ fuel ih =>
    intro dbit h8 hlt hagree
    have hshift : dbit >>> 3 = dbit / 8 := by simp [Nat.shiftRight_eq_div_pow]
    rw [dbitLoop]
    split
    · next hm =>
      simp only [hshift]
      split
      · next hne =>
        obtain ⟨h7, hfirst⟩ := firstDiff_of_byte (m := m) h8 hagree (by simpa using hne)
        rw [Nat.mod_eq_of_lt (by omega)]
        exact .inr ⟨_, rfl, hfirst⟩
      · next heq =>
        have hbyte : a (dbit / 8) = b (dbit / 8) := by simpa using heq
        refine ih _ (by omega) (Nat.mod_lt _ (by decide)) fun i hi => ?_
        rcases Nat.lt_or_ge i dbit with hid | hid
        · exact hagree i hid
        · have hi8 : i = 8 * (dbit / 8) + (i - dbit) := by
            have := Nat.mod_le (dbit + 8) (2 ^ 16)
            omega
          have := (byte_eq_iff a b (dbit / 8)).mp hbyte (i - dbit)
            (by have := Nat.mod_le (dbit + 8) (2 ^ 16); omega)
          rwa [← hi8] at this
    · next hm => exact .inr ⟨dbit, rfl, hagree, fun hd => absurd hd hm⟩

theorem dbitOf_spec (a b : Addr) (m : Nat) :
    dbitOf a b m = .error .diverges ∨ ∃ d, dbitOf a b m = .ok d ∧ FirstDiff a b m d :=
  dbitLoop_spec a b m _ 0 rfl (by decide) (by simp)

/-- The loop ends unless more than 65528 bits are checked. -/
theorem dbitLoop_ends (a b : Addr) (m : Nat) (hm : m ≤ 65528) : ∀ (fuel dbit : Nat),
    dbit % 8 = 0 → dbit ≤ 65528 → 65528 < dbit + 8 * fuel →
    ∃ d, dbitLoop a b m fuel dbit = .ok d := by
  intro fuel
  induction fuel with
  | zero => intro dbit _ _ hf; omega
  | succ fuel ih =>
    intro dbit h8 hle hf
    rw [dbitLoop]
    split
    · dsimp only
      split
      · exact ⟨_, rfl⟩
      · rw [Nat.mod_eq_of_lt (by omega)]
        exact ih _ (by omega) (by omega) (by omega)
    · exact ⟨_, rfl⟩

theorem dbitOf_ends (a b : Addr) (m : Nat) (hm : m ≤ 65528) :
    ∃ d, dbitOf a b m = .ok d ∧ FirstDiff a b m d := by
  obtain ⟨d, hd⟩ := dbitLoop_ends a b m hm 8193 0 rfl (by decide) (by decide)
  rcases dbitOf_spec a b m with he | ⟨d', hd', hfirst⟩
  · rw [dbitOf, hd] at he
    cases he
  · exact ⟨d', hd', hfirst⟩

/-- Past 65528 bits the counter wraps around on addresses that agree in 8192 bytes. -/
theorem dbitLoop_wraps (a b : Addr) (m : Nat) (hm : 65528 < m)
    (hsame : ∀ i < 8192, a i = b i) : ∀ (fuel dbit : Nat), dbit % 8 = 0 → dbit < 2 ^ 16 →
    dbitLoop a b m fuel dbit = .error .diverges := by
  intro fuel
  induction fuel with
  | zero => exact fun _ _ _ => rfl
  | succ fuel ih =>
    intro dbit h8 hlt
    have hshift : dbit >>> 3 = dbit / 8 := by simp [Nat.shiftRight_eq_div_pow]
    rw [dbitLoop, if_pos (by omega)]
    simp only [hshift, hsame (dbit / 8) (by omega), bne_self_eq_false, Bool.false_eq_true,
      if_false]
    exact ih _ (by omega) (Nat.mod_lt _ (by decide))

end OpxCommonUtils.Radix
