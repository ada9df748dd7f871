import OpxCommonUtils.Misc.Order
import OpxCommonUtils.Net.Address

/-!
# The order of the addresses

Addresses are ordered by their family and then by their bytes, as far as the families are not so far
apart that their difference is no `int`.
-/

namespace OpxCommonUtils.Net

/-! ## `memcmp` -/

theorem memcmp_swap (xs : List UInt8) : ∀ ys, memcmp ys xs = -memcmp xs ys := by
  induction xs with
  | nil => intro ys; cases ys <;> rfl
  | cons x xs ih =>
    intro ys
    cases ys with
    | nil => rfl
    | cons y ys =>
      rw [memcmp, memcmp]
      by_cases heq : x = y
      · rw [if_pos heq, if_pos heq.symm, ih ys]
      · rw [if_neg heq, if_neg (Ne.symm heq)]
        omega

/-- The first two bytes decide unless they are the same. -/
theorem memcmp_cons_nonpos {x y : UInt8} {xs ys : List UInt8} :
    memcmp (x :: xs) (y :: ys) ≤ 0 ↔ x.toNat < y.toNat ∨ x = y ∧ memcmp xs ys ≤ 0 := by
  rw [memcmp]
  by_cases heq : x = y
  · subst heq
    simp
  · have hne : x.toNat ≠ y.toNat := fun h => heq (UInt8.toNat_inj.mp h)
    rw [if_neg heq]
    simp only [heq, false_and, or_false]
    omega

theorem memcmp_trans (xs : List UInt8) : ∀ {ys zs : List UInt8}, xs.length = ys.length →
    ys.length = zs.length → memcmp xs ys ≤ 0 → memcmp ys zs ≤ 0 → memcmp xs zs ≤ 0 := by
  induction xs with
  | nil => exact fun _ _ _ _ => le_rfl
  | cons x xs ih =>
    intro ys zs hxy hyz h h'
    cases ys with
    | nil => cases hxy
    | cons y ys =>
      cases zs with
      | nil => cases hyz
      | cons z zs =>
        rw [memcmp_cons_nonpos] at h h' ⊢
        rcases h with hlt | ⟨rfl, h⟩
        · rcases h' with hlt' | ⟨rfl, -⟩
          · exact .inl (hlt.trans hlt')
          · exact .inl hlt
        · rcases h' with hlt' | ⟨rfl, h'⟩
          · exact .inl hlt'
          · exact .inr ⟨rfl, ih (Nat.succ.inj hxy) (Nat.succ.inj hyz) h h'⟩

theorem memcmp_eq_zero (xs : List UInt8) : ∀ {ys : List UInt8}, xs.length = ys.length →
    (memcmp xs ys = 0 ↔ xs = ys) := by
  induction xs with
  | nil =>
    intro ys hlen
    rw [List.length_nil] at hlen
    rw [List.eq_nil_of_length_eq_zero hlen.symm]
    exact ⟨fun _ => rfl, fun _ => rfl⟩
  | cons x xs ih =>
    intro ys hlen
    cases ys with
    | nil => cases hlen
    | cons y ys =>
      rw [memcmp, List.cons.injEq, ← ih (Nat.succ.inj hlen)]
      by_cases heq : x = y
      · simp [heq]
      · have hne : x.toNat ≠ y.toNat := fun h => heq (UInt8.toNat_inj.mp h)
        rw [if_neg heq]
        simp only [heq, false_and, iff_false]
        omega

/-! ## Addresses -/

/-- An address whose family is positive as an `int`, with all bytes of the union. -/
structure IpAddr extends HalIpAddr where
  family : afIndex < 2 ^ 31
  size : u.length = halInet6Len

/-- The bytes that count. -/
def HalIpAddr.bytes (a : HalIpAddr) : List UInt8 := a.u.take (stdIpAfindexToAddrLen a.afIndex)

theorem IpAddr.length_bytes (a : IpAddr) : a.bytes.length = stdIpAfindexToAddrLen a.afIndex := by
  rw [HalIpAddr.bytes, List.length_take, a.size, stdIpAfindexToAddrLen]
  split_ifs <;> rfl

theorem length_bytes_eq {a b : IpAddr} (h : a.afIndex = b.afIndex) :
    a.bytes.length = b.bytes.length := by
  rw [a.length_bytes, b.length_bytes, h]

/-- The family decides, and in one family the bytes. -/
theorem cmp_eq (a b : IpAddr) : stdIpCmpIpAddr a.toHalIpAddr b.toHalIpAddr =
    if a.afIndex = b.afIndex then memcmp a.bytes b.bytes else (a.afIndex : Int) - b.afIndex := by
  have ha := a.family
  have hb := b.family
  unfold stdIpCmpIpAddr
  by_cases heq : a.afIndex = b.afIndex
  · rw [if_neg (not_not.mpr heq), if_pos heq]
    unfold HalIpAddr.bytes
    rw [heq]
  · rw [if_pos heq, if_neg heq]
    exact Int.bmod_eq_of_le (by omega) (by omega)

/-- The addresses are ordered, and those are equal that have one family and the same bytes. -/
theorem addresses_ordered :
    TotalPreorder (fun a b : IpAddr => stdIpCmpIpAddr a.toHalIpAddr b.toHalIpAddr) ∧
      ∀ a b : IpAddr, stdIpCmpIpAddr a.toHalIpAddr b.toHalIpAddr = 0 ↔
        a.afIndex = b.afIndex ∧ a.bytes = b.bytes := by
  refine ⟨⟨fun a b => ?_, fun a b c hab hbc => ?_⟩, fun a b => ?_⟩
  · rw [cmp_eq, cmp_eq]
    by_cases heq : a.afIndex = b.afIndex
    · rw [if_pos heq, if_pos heq.symm, memcmp_swap]
      omega
    · rw [if_neg heq, if_neg (Ne.symm heq)]
      omega
  · rw [cmp_eq] at hab hbc ⊢
    split_ifs at hab hbc ⊢ with hac hab' hbc'
    · exact memcmp_trans _ (length_bytes_eq hab') (length_bytes_eq hbc') hab hbc
    all_goals omega
  · rw [cmp_eq]
    split_ifs with heq
    · rw [memcmp_eq_zero _ (length_bytes_eq heq)]
      exact (and_iff_right heq).symm
    · constructor
      · intro h
        omega
      · exact fun h => absurd h.1 heq

-- Families that are 2^31 apart are each before the other.
example : stdIpCmpIpAddr ⟨0, []⟩ ⟨2 ^ 31, []⟩ < 0 ∧ stdIpCmpIpAddr ⟨2 ^ 31, []⟩ ⟨0, []⟩ < 0 := by
  decide

end OpxCommonUtils.Net
