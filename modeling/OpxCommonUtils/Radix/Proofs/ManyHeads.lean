import OpxCommonUtils.Radix.Proofs.FullWalk

/-!
# Tables with many heads

A table for keys of 32 bits holds all `2 ^ 32` of them, one head more than a walk without a count
visits.
-/

namespace OpxCommonUtils.Radix

open Tree Trie LinkTree

/-- The address with the 32 bits of `i`, the highest first. -/
def addrOf (i : Nat) : Addr := fun j => UInt8.ofNat (i / 2 ^ (24 - 8 * j))

theorem bitAt_addrOf (i : Nat) {k : Nat} (hk : k < 32) :
    bitAt (addrOf i) k = i.testBit (31 - k) := by
  have hlt : 7 - k % 8 < 8 := by omega
  rw [bitAt, addrOf, UInt8.toNat_ofNat', Nat.testBit_mod_two_pow, Nat.testBit_div_two_pow]
  simp only [hlt, decide_true, Bool.true_and]
  congr 1
  omega

theorem addrOf_inj {i j : Nat} (hi : i < 2 ^ 32) (hj : j < 2 ^ 32)
    (h : firstBits (bitAt (addrOf i)) 32 = firstBits (bitAt (addrOf j)) 32) : i = j := by
  apply Nat.eq_of_testBit_eq
  intro k
  by_cases hk : k < 32
  · have hbit := firstBits_eq_iff.mp h (31 - k) (by omega)
    rw [bitAt_addrOf i (by omega), bitAt_addrOf j (by omega)] at hbit
    rwa [show 31 - (31 - k) = k by omega] at hbit
  · have hpow : (2 : Nat) ^ 32 ≤ 2 ^ k := Nat.pow_le_pow_right (by decide) (by omega)
    rw [Nat.testBit_lt_two_pow (hi.trans_le hpow), Nat.testBit_lt_two_pow (hj.trans_le hpow)]

/-- The insertions of `n` different keys lead to a table that stores them, and that has what each
insertion of a new head preserves. -/
theorem exists_keys {P : RtTable → Prop} (maxaddrlen : Nat) (hmax : maxaddrlen ≤ 65528) {N : Nat}
    (addr : Nat → Addr) (len : Nat → Nat) (hlen : ∀ i < N, len i ≤ maxaddrlen)
    (hinj : ∀ {i j : Nat}, i < N → j < N →
      firstBits (bitAt (addr i)) (len i) = firstBits (bitAt (addr j)) (len j) → i = j)
    (hinit : P (RtTable.stdRadixCreate maxaddrlen true fun _ => default))
    (hinsert : ∀ {rtt rtt' M rth i}, Reached maxaddrlen rtt M → rth ≠ NULL →
      (∀ K, M K ≠ some rth) → P rtt →
      (TableOp.insert .above true rth (addr i) (len i)).run rtt = .ok (rth, rtt') → P rtt') :
    ∀ n ≤ N, ∃ rtt M, P rtt ∧ Reached maxaddrlen rtt M ∧ ∀ K rth, M K = some rth ↔
      ∃ i < n, K = firstBits (bitAt (addr i)) (len i) ∧ rth = i + 1 := by
  intro n
  induction n with
  | zero =>
    intro _
    exact ⟨_, _, hinit, @Reached.create maxaddrlen true fun _ => default, by simp [PrefixMap.empty]⟩
  | succ n ih =>
    intro hn
    obtain ⟨rtt, M, hP, h, hM⟩ := ih (by omega)
    let K₀ := firstBits (bitAt (addr n)) (len n)
    have hnew : M K₀ = none := by
      cases hK : M K₀ with
      | none => rfl
      | some rth =>
        obtain ⟨i, hi, heq, -⟩ := (hM _ _).mp hK
        have := hinj (by omega) (by omega) heq
        omega
    let op : TableOp := .insert .above true (n + 1) (addr n) (len n)
    have hout : ∀ K, M K ≠ some (n + 1) := by
      intro K hK
      obtain ⟨i, hi, -, heq⟩ := (hM _ _).mp hK
      exact absurd (Nat.succ.inj heq) hi.ne'
    have hallow : op.Allowed maxaddrlen M :=
      ⟨Nat.succ_ne_zero n, hlen n (by omega), fun K hK => absurd hK (hout K)⟩
    have hspec : op.spec M = (n + 1, M.insert K₀ (n + 1)) := TableOp.spec_insert hnew
    obtain ⟨t, ht, heqlen⟩ := h.refines
    have hsucc : op.Succeeds := Malloc.succeeds_above
    obtain ⟨rtt', -, hrun, -, -⟩ :=
      ht.run_spec (by rw [heqlen]; exact hmax) (heqlen.symm ▸ hallow) hsucc
    rw [hspec] at hrun
    have h' := h.step hallow hrun
    rw [if_neg (Nat.succ_ne_zero n), hspec] at h'
    refine ⟨rtt', _, hinsert h (Nat.succ_ne_zero n) hout hP hrun, h', ?_⟩
    intro K rth
    change M.insert K₀ (n + 1) K = some rth ↔ _
    rw [PrefixMap.insert]
    split_ifs with hK
    · constructor
      · intro heq
        exact ⟨n, Nat.lt_succ_self n, hK, (Option.some.inj heq).symm⟩
      · rintro ⟨i, hi, heq, rfl⟩
        rw [hinj (by omega) (by omega) (hK.symm.trans heq)]
    · rw [hM]
      constructor
      · rintro ⟨i, hi, heq⟩
        exact ⟨i, by omega, heq⟩
      · rintro ⟨i, hi, rfl, heq⟩
        refine ⟨i, ?_, rfl, heq⟩
        rcases Nat.lt_succ_iff_lt_or_eq.mp hi with hlt | rfl
        · exact hlt
        · exact absurd rfl hK

/-- All keys of 32 bits. -/
theorem exists_firstKeys {P : RtTable → Prop}
    (hinit : P (RtTable.stdRadixCreate 32 true fun _ => default))
    (hinsert : ∀ {rtt rtt' M rth addr}, Reached 32 rtt M → rth ≠ NULL → (∀ K, M K ≠ some rth) →
      P rtt → (TableOp.insert .above true rth addr 32).run rtt = .ok (rth, rtt') → P rtt') :
    ∀ n ≤ 2 ^ 32, ∃ rtt M, P rtt ∧ Reached 32 rtt M ∧
      ∀ K rth, M K = some rth ↔ ∃ i < n, K = firstBits (bitAt (addrOf i)) 32 ∧ rth = i + 1 :=
  exists_keys 32 (by decide) addrOf (fun _ => 32) (fun _ _ => le_rfl) addrOf_inj hinit hinsert

/-- With all `2 ^ 32` keys of 32 bits in the table, a walk with the count 0 leaves out the last
head. -/
theorem full_walk_stops_short : ¬ ∀ (maxaddrlen : Nat) (rtt : RtTable) (M : PrefixMap)
    (walkFn : List Ptr → Ptr → Int) (cnt : Int), Reached maxaddrlen rtt M → 0 ≤ cnt ∧ cnt < 2 ^ 31 →
      ∃ L, M.Listing L ∧ ∃ rth, rtt.stdRadixWalk NULL (some walkFn) cnt = .ok (rth,
        callsOf walkFn []
          (if cnt = 0 then L.map Prod.snd else (L.map Prod.snd).take cnt.toNat)) := by
  intro hclaim
  obtain ⟨rtt, M, -, h, hM⟩ :=
    exists_firstKeys (P := fun _ => True) trivial (fun _ _ _ _ _ => trivial) (2 ^ 32) le_rfl
  obtain ⟨L, hL, rth, hwalk⟩ := hclaim 32 rtt M (fun _ _ => 0) 0 h (by decide)
  obtain ⟨t, ht, -⟩ := h.refines
  rw [ht.stdRadixWalk_spec (fun _ _ => 0) (by decide)] at hwalk
  have hcalls := congrArg Prod.snd (Except.ok.inj hwalk)
  simp only [if_true] at hcalls
  rw [visits_calls _ _ _ _ (by decide), ← ht.heads_listing, ht.listing_spec.unique hL,
    callsOf_take_iff] at hcalls
  rcases hcalls with hle | ⟨before, rth, after, -, -, hstop⟩
  · have hge : 2 ^ 32 ≤ L.length := le_length_of_heads fun i hi =>
      ⟨_, (hL.mem _ _).mpr ((hM _ _).mpr ⟨i, hi, rfl, rfl⟩)⟩
    rw [List.length_map] at hle
    omega
  · exact hstop rfl

end OpxCommonUtils.Radix
