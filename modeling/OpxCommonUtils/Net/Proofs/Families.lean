import OpxCommonUtils.Net.Proofs.Mask

/-!
# Masks of both families

`std_ip_get_mask_from_prefix_len` clears the address before it is filled in, so that the length 0 is
no exception here. Lengths beyond the width of the address are not refused.
-/

namespace OpxCommonUtils.Net

namespace HalIpAddr

/-- The width of an address in bits. -/
def width (a : HalIpAddr) : Nat := if a.afIndex = halInet4Family then 32 else 128

/-- The bit `i` of an address, the highest first. -/
def bit (a : HalIpAddr) (e : Endian) (i : Nat) : Bool :=
  if a.afIndex = halInet4Family then (a.v4Addr e).getMsbD i else maskBit a.u i

/-- What the function for the family of the address says the length is. -/
def prefixLen (a : HalIpAddr) (e : Endian) : Exec Int :=
  if a.afIndex = halInet4Family then stdIpV4MaskToPrefixLen (a.v4Addr e)
  else stdIpV6MaskToPrefixLen a.u (some 0) halInet6Len

/-- The mask of `n` bits, which comes back as `n`. -/
structure IsMask (a : HalIpAddr) (e : Endian) (n : Nat) : Prop where
  bits : ∀ i < a.width, a.bit e i = decide (i < n)
  back : a.prefixLen e = .ok (n : Int)

end HalIpAddr

/-- The length of a mask that is all of the memory. -/
theorem cutMask_back (len : Nat) {n : Nat} (hn : n ≤ 8 * len) (hint : n < 2 ^ 31) :
    stdIpV6MaskToPrefixLen (cutMask len n) (some 0) len = .ok (n : Int) := by
  have hback := maskToPrefixLen_spec [] (cutMask len n) []
  rwa [sum_cutMask hn, bmod_eq_self_iff.mpr hint, List.append_nil, length_cutMask hn] at hback

/-! ## IPv4 -/

theorem toNat_maskVal {k : Nat} (hk : k < 32) :
    ((1#32 <<< k) - 1).toNat = 2 ^ k - 1 := by
  have hlt : 2 ^ k < 2 ^ 32 := Nat.pow_lt_pow_right (by decide) hk
  have hpos : 0 < 2 ^ k := Nat.two_pow_pos k
  have hshift : (1#32 <<< k).toNat = 2 ^ k := by
    have hone : (1#32).toNat = 1 := rfl
    rw [BitVec.toNat_shiftLeft, hone, Nat.shiftLeft_eq, Nat.one_mul, Nat.mod_eq_of_lt hlt]
  rw [BitVec.toNat_sub, hshift]
  have hone : (1 : BitVec 32).toNat = 1 := rfl
  omega

/-- The highest `n` bits are set. -/
theorem v4_bits {n i : Nat} (hn : n ≤ 32) (hi : i < 32) :
    (stdIpV4PrefixLenToMask n).getMsbD i = decide (i < n) := by
  have hwidth : NBBY * 4 = 32 := rfl
  unfold stdIpV4PrefixLenToMask
  rw [hwidth, if_neg (by omega), BitVec.getMsbD_not]
  by_cases h0 : n = 0
  · subst h0
    have hones : (0xffffffff : BitVec 32) = BitVec.allOnes 32 := by decide
    have hlast : 32 - 1 - i < 32 := by omega
    rw [if_neg (by simp), hones, BitVec.getMsbD_eq_getLsbD, BitVec.getLsbD_allOnes,
      decide_eq_true hi, decide_eq_true hlast]
    rfl
  · rw [if_pos h0, BitVec.getMsbD_eq_getLsbD, BitVec.getLsbD, toNat_maskVal (by omega),
      Nat.testBit_two_pow_sub_one]
    simp only [hi, decide_true, Bool.true_and]
    rw [← decide_not, decide_eq_decide]
    omega

/-- In network order the bytes are those of an IPv6 mask of four bytes. -/
theorem v4_bytes : ∀ n ≤ 32,
    (leBytes 4 (stdIpV4PrefixLenToMask n).toNat).reverse = cutMask 4 n := by
  decide

theorem v4_back {n : Nat} (hn : n ≤ 32) :
    stdIpV4MaskToPrefixLen (stdIpV4PrefixLenToMask n) = .ok (n : Int) := by
  unfold stdIpV4MaskToPrefixLen
  split_ifs with h0
  · -- only the mask of the length 0 has no bit
    have hbit := v4_bits (i := 0) hn (by decide)
    rw [h0] at hbit
    have hn0 : n = 0 := by simpa using hbit
    rw [hn0]
    rfl
  · rw [v4_bytes n hn]
    exact cutMask_back 4 hn (by omega)

/-- What the function for IPv4 delivers: a length beyond the width is taken for 0. -/
theorem v4_mask (n : Nat) : stdIpV4PrefixLenToMask n =
    stdIpV4PrefixLenToMask (if n ≤ 32 then n else 0) := by
  split_ifs with hn
  · rfl
  · have hwide : NBBY * 4 < n := by
      rw [NBBY]
      omega
    rw [stdIpV4PrefixLenToMask, if_pos hwide]
    decide

/-- What is stored into the cleared address is read back from it. -/
theorem v4Addr_store (e : Endian) (mask : BitVec 32) :
    ∃ u, Mem.store (List.replicate halInet6Len 0) 0 (e.bytes 4 mask.toNat) = .ok u ∧
      (HalIpAddr.mk halInet4Family u).v4Addr e = mask := by
  have hzeros : (List.replicate halInet6Len 0 : Mem) =
      [] ++ (List.replicate 4 0 ++ List.replicate 12 0) := rfl
  have hlen : (e.bytes 4 mask.toNat).length = (List.replicate 4 (0 : UInt8)).length := by
    rw [Endian.length_bytes, List.length_replicate]
  refine ⟨_, hzeros ▸ Mem.store_append [] _ hlen, ?_⟩
  unfold HalIpAddr.v4Addr
  rw [List.nil_append, List.take_append_of_le_length (by rw [Endian.length_bytes]),
    List.take_of_length_le (by rw [Endian.length_bytes]), Endian.nat_bytes mask.isLt,
    BitVec.ofNat_toNat, BitVec.setWidth_eq]

theorem v4_isMask {e : Endian} {afIndex n : Nat} {u : Mem} (haf : afIndex = halInet4Family)
    (haddr : (HalIpAddr.mk halInet4Family u).v4Addr e = stdIpV4PrefixLenToMask n) :
    (HalIpAddr.mk afIndex u).IsMask e (if n ≤ 32 then n else 0) := by
  subst haf
  rw [v4_mask] at haddr
  have hle : (if n ≤ 32 then n else 0) ≤ 32 := by split_ifs <;> omega
  refine ⟨fun i hi => ?_, ?_⟩
  · rw [HalIpAddr.width, if_pos rfl] at hi
    rw [HalIpAddr.bit, if_pos rfl, haddr, v4_bits hle hi]
  · rw [HalIpAddr.prefixLen, if_pos rfl, haddr, v4_back hle]

/-! ## IPv6 -/

/-- The cleared address becomes the mask, also for the length 0; behind the whole address there is
one byte's worth of lengths that do no harm. -/
theorem v6_written {n : Nat} (hn : n < 136) :
    stdIpV6PrefixLenToMask (List.replicate halInet6Len 0) (some 0) halInet6Len n =
      .ok (cutMask 16 (min n 128)) := by
  by_cases h0 : n = 0
  · subst h0
    rfl
  · by_cases hle : n ≤ 128
    · rw [Nat.min_eq_left hle]
      have hlen : (List.replicate halInet6Len 0 : Mem).length = halInet6Len :=
        List.length_replicate
      have hwidth : n ≤ 8 * (List.replicate halInet6Len 0 : Mem).length := by
        rw [hlen]
        exact hle
      have hspec := prefixLenToMask_spec [] [] h0 hwidth (by rw [hlen]; decide)
      rwa [hlen, List.append_nil, List.append_nil] at hspec
    · have hq : n / NBBY = 16 := by
        rw [NBBY]
        omega
      rw [Nat.min_eq_right (by omega)]
      unfold stdIpV6PrefixLenToMask
      dsimp only
      rw [if_neg h0, hq]
      rfl

theorem v6_overflow {n : Nat} (hn : 136 ≤ n) :
    ∃ fault,
      stdIpV6PrefixLenToMask (List.replicate halInet6Len 0) (some 0) halInet6Len n =
        .error fault := by
  have hq : 16 < n / NBBY := by
    rw [NBBY]
    omega
  unfold stdIpV6PrefixLenToMask
  dsimp only
  rw [if_neg (by omega), Mem.store, if_neg (by simp [halInet6Len]; omega)]
  exact ⟨_, rfl⟩

theorem v6_isMask {afIndex n : Nat} (e : Endian) (haf : afIndex ≠ halInet4Family) (hn : n ≤ 128) :
    (HalIpAddr.mk afIndex (cutMask 16 n)).IsMask e n := by
  refine ⟨fun i hi => ?_, ?_⟩
  · rw [HalIpAddr.width, if_neg haf] at hi
    rw [HalIpAddr.bit, if_neg haf]
    exact cutMask_bits hi
  · rw [HalIpAddr.prefixLen, if_neg haf]
    exact cutMask_back 16 hn (by omega)

/-! ## Result -/

/-- Every length up to the width gives its mask, and comes back. Beyond that the IPv4 mask is empty,
and the IPv6 mask full until the address is written past its end. -/
theorem masks_of_lengths (e : Endian) (afIndex n : Nat) :
    if afIndex = halInet4Family then
      ∃ mask, stdIpGetMaskFromPrefixLen e afIndex n = .ok mask ∧ mask.afIndex = afIndex ∧
        mask.IsMask e (if n ≤ 32 then n else 0)
    else if n < 136 then
      ∃ mask, stdIpGetMaskFromPrefixLen e afIndex n = .ok mask ∧ mask.afIndex = afIndex ∧
        mask.IsMask e (min n 128)
    else ∃ fault, stdIpGetMaskFromPrefixLen e afIndex n = .error fault := by
  unfold stdIpGetMaskFromPrefixLen
  dsimp only
  by_cases haf : afIndex = halInet4Family
  · rw [if_pos haf, if_pos haf]
    obtain ⟨u, hu, haddr⟩ := v4Addr_store e (stdIpV4PrefixLenToMask n)
    rw [hu]
    exact ⟨_, rfl, rfl, v4_isMask haf haddr⟩
  · rw [if_neg haf, if_neg haf]
    split_ifs with hn
    · rw [v6_written hn]
      exact ⟨_, rfl, rfl, v6_isMask e haf (Nat.min_le_right _ _)⟩
    · obtain ⟨fault, hfault⟩ := v6_overflow (Nat.not_lt.mp hn)
      rw [hfault]
      exact ⟨fault, rfl⟩

end OpxCommonUtils.Net
