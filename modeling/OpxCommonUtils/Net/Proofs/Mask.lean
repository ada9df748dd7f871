import Mathlib.Algebra.BigOperators.Group.List.Basic
import Mathlib.Data.List.GetD
import OpxCommonUtils.Misc.BitString
import OpxCommonUtils.Net.Mask

/-!
# Masks and prefix lengths

Behind the whole bytes comes the byte that is cut, and then zeros (`cutMask`). For the length 0
nothing is written, and the bytes of the caller stay.
-/

namespace OpxCommonUtils.Net

/-- The mask of `len` bytes of which the first `n` bits are set. -/
def cutMask (len n : Nat) : Mem :=
  List.replicate (n / 8) 0xff ++
    if n / 8 = len then []
    else maskVal.getD (n % 8) 0 :: List.replicate (len - n / 8 - 1) 0

/-- The bit `i` of a mask, the highest bit of the first byte first. -/
def maskBit (mask : Mem) (i : Nat) : Bool := bitAt (fun k => mask.getD k 0) i

/-- A mask of `n` bits in the buffer `buf` comes back as `n`, with nothing else written. -/
structure MaskRoundTrip (pre buf post : Mem) (n : Nat) (mask : Mem) : Prop where
  written : stdIpV6PrefixLenToMask (pre ++ (buf ++ post)) (some pre.length) buf.length n =
    .ok (pre ++ (mask ++ post))
  length : mask.length = buf.length
  bits : ∀ i < 8 * buf.length, maskBit mask i = decide (i < n)
  back : stdIpV6MaskToPrefixLen (pre ++ (mask ++ post)) (some pre.length) buf.length = .ok n

theorem length_cutMask {len n : Nat} (h : n ≤ 8 * len) : (cutMask len n).length = len := by
  rw [cutMask, List.length_append, List.length_replicate]
  split
  · next heq => simpa using heq
  · rw [List.length_cons, List.length_replicate]
    omega

/-- The three writes. -/
theorem prefixLenToMask_spec (pre post : Mem) {buf : Mem} {n : Nat} (h0 : n ≠ 0)
    (hn : n ≤ 8 * buf.length) (hlen : buf.length < 2 ^ 64) :
    stdIpV6PrefixLenToMask (pre ++ (buf ++ post)) (some pre.length) buf.length n =
      .ok (pre ++ (cutMask buf.length n ++ post)) := by
  have hq : n / 8 ≤ buf.length := by omega
  let x := buf.take (n / 8)
  let y := buf.drop (n / 8)
  let ones : Mem := List.replicate (n / 8) 0xff
  have hbuf : buf = x ++ y := (List.take_append_drop _ _).symm
  have hx : ones.length = x.length := by simp [ones, x, hq]
  have hones : ones.length = n / 8 := List.length_replicate
  have hsub : (buf.length + 2 ^ 64 - n / 8) % 2 ^ 64 = y.length := by
    have : y.length = buf.length - n / 8 := List.length_drop
    omega
  have hwhole : Mem.store (pre ++ (buf ++ post)) pre.length ones =
      .ok (pre ++ (ones ++ (y ++ post))) := by
    rw [hbuf, List.append_assoc]
    exact Mem.store_append pre (y ++ post) hx
  have hbits : NBBY = 8 := rfl
  unfold stdIpV6PrefixLenToMask
  dsimp only
  rw [if_neg h0, hbits, hwhole, exec_bind_ok]
  simp only [hsub]
  rw [cutMask]
  cases hy : y with
  | nil =>
    have heq : n / 8 = buf.length := by
      have : y.length = buf.length - n / 8 := List.length_drop
      rw [hy, List.length_nil] at this
      omega
    rw [if_pos List.length_nil, if_pos heq, List.append_nil]
    rfl
  | cons b z =>
    have hz : z.length = buf.length - n / 8 - 1 := by
      have : y.length = buf.length - n / 8 := List.length_drop
      rw [hy, List.length_cons] at this
      omega
    have hne : n / 8 ≠ buf.length := by
      have : y.length = buf.length - n / 8 := List.length_drop
      rw [hy, List.length_cons] at this
      omega
    let cut : UInt8 := maskVal.getD (n % 8) 0
    have hpre : pre ++ (ones ++ (b :: z ++ post)) = (pre ++ ones) ++ ([b] ++ (z ++ post)) := by
      simp
    have hptr : pre.length + n / 8 = (pre ++ ones).length := by rw [List.length_append, hones]
    have hcut : Mem.store ((pre ++ ones) ++ ([b] ++ (z ++ post))) (pre ++ ones).length [cut] =
        .ok ((pre ++ ones) ++ ([cut] ++ (z ++ post))) := Mem.store_append _ _ rfl
    have hpre' : (pre ++ ones) ++ ([cut] ++ (z ++ post)) =
        (pre ++ ones ++ [cut]) ++ (z ++ post) := by simp
    have hptr' : (pre ++ ones).length + 1 = (pre ++ ones ++ [cut]).length := by
      simp [Nat.add_assoc]
    let zeros : Mem := List.replicate z.length 0
    have hzeros : zeros.length = z.length := List.length_replicate
    have htail : Mem.store ((pre ++ ones ++ [cut]) ++ (z ++ post)) (pre ++ ones ++ [cut]).length
        zeros = .ok ((pre ++ ones ++ [cut]) ++ (zeros ++ post)) := Mem.store_append _ _ hzeros
    rw [if_neg (by simp), if_neg hne, hpre, hptr, hcut, exec_bind_ok, hpre', hptr',
      List.length_cons, Nat.add_sub_cancel, htail, ← hz]
    simp [ones, cut, zeros]

/-! ## The bits -/

theorem maskVal_bit : ∀ r < 8, ∀ j < 8,
    (maskVal.getD r 0).toNat.testBit (7 - j) = decide (j < r) := by
  decide

theorem cutMask_bits {len n i : Nat} (hi : i < 8 * len) :
    maskBit (cutMask len n) i = decide (i < n) := by
  have hmod : i % 8 < 8 := Nat.mod_lt _ (by decide)
  rw [maskBit, bitAt]
  rcases Nat.lt_trichotomy (i / 8) (n / 8) with hlt | heq | hgt
  · -- a whole byte
    have hbyte : (cutMask len n).getD (i / 8) 0 = 0xff := by
      rw [cutMask, List.getD_append _ _ _ _ (by simpa using hlt), List.getD_replicate _ hlt]
    have hones : ∀ j < 8, (0xff : UInt8).toNat.testBit (7 - j) = true := by decide
    rw [hbyte, hones _ hmod, eq_comm, decide_eq_true_iff]
    omega
  · have hne : n / 8 ≠ len := by omega
    have hbyte : (cutMask len n).getD (i / 8) 0 = maskVal.getD (n % 8) 0 := by
      rw [cutMask, List.getD_append_right _ _ _ _ (by simp [heq]), if_neg hne, heq,
        List.length_replicate, Nat.sub_self]
      rfl
    rw [hbyte, maskVal_bit _ (Nat.mod_lt _ (by decide)) _ hmod, decide_eq_decide]
    omega
  · have hne : n / 8 ≠ len := by omega
    have hbyte : (cutMask len n).getD (i / 8) 0 = 0 := by
      obtain ⟨k, hk⟩ : ∃ k, i / 8 - n / 8 = k + 1 := ⟨i / 8 - n / 8 - 1, by omega⟩
      rw [cutMask, List.getD_append_right _ _ _ _ (by simpa using hgt.le), if_neg hne,
        List.length_replicate, hk, List.getD_cons_succ]
      rw [List.getD_eq_getElem?_getD, List.getElem?_getD_replicate_default_eq]
    rw [hbyte, eq_comm]
    simp only [UInt8.toNat_zero, Nat.zero_testBit, decide_eq_false_iff_not]
    omega

/-! ## The way back -/

/-- The loop adds the places of the bytes up. -/
theorem maskToPrefixLenLoop_spec (post bs : Mem) : ∀ (pre : Mem) (ix p : Nat) (a : Int),
    pre.length = p + ix →
    maskToPrefixLenLoop (pre ++ (bs ++ post)) p bs.length ix (a.bmod (2 ^ 32)) =
      .ok ((a + (bs.map bitPos).sum).bmod (2 ^ 32)) := by
  induction bs with
  | nil =>
    intro pre ix p a _
    rw [List.length_nil, maskToPrefixLenLoop, List.map_nil, List.sum_nil, add_zero]
  | cons b bs ih =>
    intro pre ix p a hpre
    have hload : Mem.load (pre ++ (b :: bs ++ post)) (p + ix) 1 = .ok [b] := by
      rw [← hpre, Mem.load, if_pos (by simp), List.drop_left]
      rfl
    have hmem : pre ++ (b :: bs ++ post) = (pre ++ [b]) ++ (bs ++ post) := by simp
    have hnext := ih (pre ++ [b]) (ix + 1) p (a + bitPos b) (by simp [hpre, Nat.add_assoc])
    rw [List.length_cons, maskToPrefixLenLoop, hload, exec_bind_ok, List.headD_cons, intAdd,
      Int.bmod_add_bmod, hmem, hnext, List.map_cons, List.sum_cons, add_assoc]

theorem bitPos_maskVal : ∀ r < 8, bitPos (maskVal.getD r 0) = r := by decide

theorem sum_cutMask {len n : Nat} (h : n ≤ 8 * len) :
    ((cutMask len n).map bitPos).sum = n := by
  have hones : bitPos 0xff = 8 := rfl
  have hzero : bitPos 0 = 0 := rfl
  rw [cutMask, List.map_append, List.sum_append, List.map_replicate, List.sum_replicate_int, hones]
  split
  · rw [List.map_nil, List.sum_nil]
    omega
  · rw [List.map_cons, List.sum_cons, List.map_replicate, List.sum_replicate_int, hzero,
      bitPos_maskVal _ (Nat.mod_lt _ (by decide))]
    omega

theorem maskToPrefixLen_spec (pre mask post : Mem) :
    stdIpV6MaskToPrefixLen (pre ++ (mask ++ post)) (some pre.length) mask.length =
      .ok (((mask.map bitPos).sum).bmod (2 ^ 32)) := by
  have hloop := maskToPrefixLenLoop_spec post mask pre 0 pre.length 0 rfl
  rwa [zero_add] at hloop

theorem bmod_eq_self_iff {n : Nat} : (n : Int).bmod (2 ^ 32) = n ↔ n < 2 ^ 31 := by
  rw [Int.bmod_def]
  split <;> omega

/-! ## Result -/

theorem bits_cut {pre buf post mask : Mem} {n : Nat} (h : MaskRoundTrip pre buf post n mask)
    {b : UInt8} (hb : b ∈ mask) (h0 : n = 0) : b = 0 := by
  obtain ⟨k, hk, rfl⟩ := List.getElem_of_mem hb
  apply UInt8.toNat_inj.mp
  apply Nat.eq_of_testBit_eq
  intro j
  rw [UInt8.toNat_zero, Nat.zero_testBit]
  by_cases hj : j < 8
  · have hlen := h.length
    have hbit := h.bits (8 * k + (7 - j)) (by omega)
    rw [maskBit, bitAt_byte _ _ _ (by omega), List.getD_eq_getElem _ _ hk] at hbit
    rw [show 7 - (7 - j) = j by omega] at hbit
    rw [hbit, decide_eq_false_iff_not]
    omega
  · refine Nat.testBit_lt_two_pow (lt_of_lt_of_le mask[k].toNat_lt ?_)
    exact Nat.pow_le_pow_right (by decide) (Nat.not_lt.mp hj)

/-- Every mask has its bits, keeps to its buffer and gives the length back exactly if the length is
not 0, or the buffer held zeros only, and the length is an `int`. -/
theorem mask_round_trip_iff (pre buf post : Mem) (n : Nat) (hn : n ≤ 8 * buf.length)
    (hlen : buf.length < 2 ^ 64) :
    (∃ mask, MaskRoundTrip pre buf post n mask) ↔ (n = 0 → ∀ b ∈ buf, b = 0) ∧ n < 2 ^ 31 := by
  by_cases h0 : n = 0
  · subst h0
    have hstay : stdIpV6PrefixLenToMask (pre ++ (buf ++ post)) (some pre.length) buf.length 0 =
        .ok (pre ++ (buf ++ post)) := rfl
    constructor
    · rintro ⟨mask, h⟩
      have heq : buf = mask := by
        have := List.append_cancel_left (Except.ok.inj (hstay.symm.trans h.written))
        exact List.append_cancel_right this
      exact ⟨fun _ b hb => bits_cut h (heq ▸ hb) rfl, by decide⟩
    · rintro ⟨hzero, -⟩
      have hbuf : buf = cutMask buf.length 0 := by
        cases buf with
        | nil => rfl
        | cons b bs =>
          obtain rfl : b = 0 := hzero rfl b List.mem_cons_self
          have hbs := List.eq_replicate_of_mem fun c hc => hzero rfl c (List.mem_cons_of_mem _ hc)
          exact congrArg (List.cons 0) hbs
      refine ⟨buf, hstay, rfl, fun i hi => ?_, ?_⟩
      · rw [hbuf, cutMask_bits hi]
      · rw [maskToPrefixLen_spec, hbuf, sum_cutMask (Nat.zero_le _)]
        rfl
  · rw [and_iff_right fun h => absurd h h0]
    have hwritten := prefixLenToMask_spec pre post h0 hn hlen
    have hmask := length_cutMask hn
    have hback := maskToPrefixLen_spec pre (cutMask buf.length n) post
    rw [hmask, sum_cutMask hn] at hback
    constructor
    · rintro ⟨mask, h⟩
      have heq : cutMask buf.length n = mask := by
        have := List.append_cancel_left (Except.ok.inj (hwritten.symm.trans h.written))
        exact List.append_cancel_right this
      have hint := Except.ok.inj (hback.symm.trans (heq ▸ h.back))
      exact bmod_eq_self_iff.mp hint
    · intro hint
      refine ⟨_, hwritten, hmask, fun i hi => cutMask_bits hi, ?_⟩
      rw [hback, bmod_eq_self_iff.mpr hint]

/-- A mask of 12 bits over bytes that were in use. -/
theorem mask_round_trip_sample :
    ∃ mask, MaskRoundTrip [1] [7, 7, 7] [9] 12 mask :=
  (mask_round_trip_iff [1] [7, 7, 7] [9] 12 (by decide) (by decide)).mpr
    ⟨fun h => absurd h (by decide), by decide⟩

/-- The mask of length 0 over the byte 128 is 128. -/
theorem empty_mask_not_written : ¬ ∀ (pre buf post : Mem) (n : Nat), buf ≠ [] →
    n ≤ 8 * buf.length → buf.length < 2 ^ 64 → ∃ mask, MaskRoundTrip pre buf post n mask := by
  intro hclaim
  obtain ⟨mask, h⟩ := hclaim [] [128] [] 0 (by decide) (by decide) (by decide)
  have heq : [128] = mask := by
    have := Except.ok.inj h.written
    simpa using this
  exact absurd (bits_cut h (heq ▸ List.mem_singleton_self 128) rfl) (by decide)

end OpxCommonUtils.Net
