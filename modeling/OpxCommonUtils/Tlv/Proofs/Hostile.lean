import OpxCommonUtils.Tlv.Format

/-!
# Searching a buffer of arbitrary bytes

`std_tlv_find_next` on a buffer that no encoder has written. The search hops from offset to
offset (`Visited`); `Safe` says of the bytes it meets there that a header fits in what is left,
that a TLV it returns has no length that overflows, and that a TLV it passes does not have the
one length with which it would not advance. The search is safe exactly on such buffers.
-/

namespace OpxCommonUtils.Tlv

open Mem

/-- The eight bytes at `p` as a little-endian number. -/
def leAt (mem : Mem) (p : Nat) : Nat := leNat ((mem.drop p).take 8)

/-- How far the TLV at `p` says it extends, modulo `2 ^ 64`. -/
def hop (mem : Mem) (p : Nat) : Nat := (leAt mem (p + 8) + 16) % 2 ^ 64

/-- The offsets at which the search for a tag arrives. -/
inductive Visited (mem : Mem) (tag : UInt64) : Nat → Prop
  | start : Visited mem tag 0
  | hop {p : Nat} : Visited mem tag p → p + 16 ≤ mem.length → UInt64.ofNat (leAt mem p) ≠ tag →
      p + hop mem p ≤ mem.length → Visited mem tag (p + hop mem p)

/-- What the search must find at the offsets it visits. -/
def Safe (mem : Mem) (tag : UInt64) : Prop :=
  ∀ p, Visited mem tag p → p < mem.length → p + 16 ≤ mem.length ∧
    (UInt64.ofNat (leAt mem p) = tag → leAt mem (p + 8) < 2 ^ 64 - 16) ∧
    (UInt64.ofNat (leAt mem p) ≠ tag → leAt mem (p + 8) ≠ 2 ^ 64 - 16)

variable {e : Endian} {mem : Mem} {tag : UInt64} {p : Nat}

theorem Visited.le_length (h : Visited mem tag p) : p ≤ mem.length := by
  cases h with
  | start => exact Nat.zero_le _
  | hop _ _ _ hle => exact hle

theorem loadLe_eq (h : p + 8 ≤ mem.length) : loadLe e mem p 8 = .ok (leAt mem p) := by
  have hlen : ((mem.drop p).take 8).length = 8 := by
    rw [List.length_take, List.length_drop]
    omega
  have hconv := e.htole_nat ((mem.drop p).take 8)
  rw [hlen] at hconv
  rw [loadLe, load_eq_ok _ h, exec_bind_ok, hconv]
  rfl

theorem stdTlvLen_eq (h : p + 16 ≤ mem.length) : stdTlvLen e mem p = .ok (leAt mem (p + 8)) :=
  loadLe_eq (p := p + 8) (by omega)

theorem leAt_lt (mem : Mem) (p : Nat) : leAt mem p < 2 ^ 64 := by
  have h := leNat_lt ((mem.drop p).take 8)
  have hle : ((mem.drop p).take 8).length ≤ 8 := by simp
  exact h.trans_le (Nat.pow_le_pow_right (by decide) hle)

/-- One round of the search, at an offset where there is a header. -/
theorem findNextLoop_step (fuel : Nat) (h : p + 16 ≤ mem.length) :
    findNextLoop e mem tag (fuel + 1) (some p) (mem.length - p) =
      if mem.length < p + hop mem p then .ok (none, mem.length - p)
      else if UInt64.ofNat (leAt mem p) = tag then .ok (some p, mem.length - p)
      else findNextLoop e mem tag fuel (some (p + hop mem p)) (mem.length - (p + hop mem p)) := by
  have htot : stdTlvTotalLen e mem p = .ok (hop mem p) := by
    rw [stdTlvTotalLen, stdTlvLen_eq h]
    rfl
  have htag : stdTlvTag e mem p = .ok (UInt64.ofNat (leAt mem p)) := by
    rw [stdTlvTag, show stdTlvOffset p STD_TLV_TAG_POS = p from rfl, loadLe_eq (by omega)]
    rfl
  have hvalid : stdTlvValid e mem (some p) (mem.length - p) =
      .ok (decide (hop mem p ≤ mem.length - p)) := by
    rw [stdTlvValid, if_neg (by omega), htot]
    rfl
  rw [findNextLoop, hvalid, exec_bind_ok]
  by_cases hout : mem.length < p + hop mem p
  · rw [if_pos hout, decide_eq_false (by omega)]
    rfl
  · rw [if_neg hout, decide_eq_true (by omega)]
    simp only [htag, exec_bind_ok, stdTlvNext, htot, if_neg (show ¬ mem.length - p < hop mem p by
      omega), exec_pure, Option.isNone_some, Bool.false_eq_true, if_false]
    rw [Nat.sub_sub]
    rfl

/-- At the end of the buffer the search is over. -/
theorem findNextLoop_end (fuel : Nat) :
    findNextLoop e mem tag (fuel + 1) (some p) 0 = .ok (none, 0) := rfl

/-- Without room for a header the length is read beyond the buffer. -/
theorem findNextLoop_short (fuel : Nat) (hlt : p < mem.length) (hshort : mem.length < p + 16) :
    findNextLoop e mem tag (fuel + 1) (some p) (mem.length - p) =
      .error (.badPointer mem.length) := by
  rw [findNextLoop, stdTlvValid, if_neg (by omega), stdTlvTotalLen, stdTlvLen, loadLe,
    load_error (by simp only [stdTlvOffset, STD_TLV_LEN_POS]; omega)]
  rfl

/-- A TLV of total length 0 that is not the one looked for keeps the search where it is. -/
theorem findNextLoop_stuck (h : p + 16 ≤ mem.length) (htag : UInt64.ofNat (leAt mem p) ≠ tag)
    (hzero : hop mem p = 0) (fuel : Nat) :
    findNextLoop e mem tag fuel (some p) (mem.length - p) = .error .diverges := by
  induction fuel with
  | zero => rfl
  | succ fuel ih =>
    rw [findNextLoop_step fuel h, if_neg (by omega), if_neg htag, hzero]
    exact ih

/-- What a search that ends safely delivers: nothing, or a TLV inside the buffer. -/
def Inside (e : Endian) (mem : Mem) (r : Option Nat × Nat) : Prop :=
  ∀ p, r.1 = some p → ∃ len, stdTlvLen e mem p = .ok len ∧ p + 16 + len ≤ mem.length

/-- A search that ends has visited every offset it arrives at with rounds to spare. -/
theorem Visited.run {fuel : Nat} {r : Option Nat × Nat} (hv : Visited mem tag p)
    (hrun : findNextLoop e mem tag fuel (some 0) mem.length = .ok r) :
    ∃ fuel', findNextLoop e mem tag fuel' (some p) (mem.length - p) = .ok r := by
  induction hv with
  | start => exact ⟨fuel, hrun⟩
  | @hop p _ h htag hle ih =>
    obtain ⟨fuel', hrun'⟩ := ih
    cases fuel' with
    | zero => cases hrun'
    | succ fuel' =>
      rw [findNextLoop_step fuel' h, if_neg (by omega), if_neg htag] at hrun'
      exact ⟨fuel', hrun'⟩

/-- Every round either ends or advances, so the search ends safely. -/
theorem Safe.run (hsafe : Safe mem tag) : ∀ {p fuel : Nat}, Visited mem tag p →
    mem.length - p < fuel →
    ∃ r, findNextLoop e mem tag fuel (some p) (mem.length - p) = .ok r ∧ Inside e mem r := by
  intro p fuel
  induction fuel generalizing p with
  | zero => intro _ hf; omega
  | succ fuel ih =>
    intro hv hf
    rcases Nat.lt_or_ge p mem.length with hlt | hge
    · obtain ⟨h, hfound, hpassed⟩ := hsafe p hv hlt
      rw [findNextLoop_step fuel h]
      by_cases hout : mem.length < p + hop mem p
      · rw [if_pos hout]
        exact ⟨_, rfl, fun q hq => by cases hq⟩
      · rw [if_neg hout]
        have hlen := leAt_lt mem (p + 8)
        by_cases htag : UInt64.ofNat (leAt mem p) = tag
        · rw [if_pos htag]
          refine ⟨_, rfl, fun q hq => ?_⟩
          obtain rfl := Option.some_inj.mp hq
          refine ⟨_, stdTlvLen_eq h, ?_⟩
          have := hfound htag
          have hhop : hop mem p = leAt mem (p + 8) + 16 := by
            rw [hop, Nat.mod_eq_of_lt (by omega)]
          omega
        · rw [if_neg htag]
          have hne := hpassed htag
          have hpos : 0 < hop mem p := by
            unfold hop
            omega
          exact ih (hv.hop h htag (by omega)) (by omega)
    · rw [Nat.sub_eq_zero_of_le hge]
      exact ⟨_, findNextLoop_end fuel, fun q hq => by cases hq⟩

/-- On a buffer of arbitrary bytes the search ends, reads no byte outside and returns a TLV that
lies inside the buffer, if and only if the buffer is safe. -/
theorem findNext_safe_iff (e : Endian) (mem : Mem) (hn : mem.length < 2 ^ 64) (tag : UInt64) :
    (∃ r, stdTlvFindNext e mem (some 0) mem.length tag = .ok r ∧ Inside e mem r) ↔
      Safe mem tag := by
  constructor
  · rintro ⟨r, hrun, hin⟩ p hv hlt
    obtain ⟨fuel, hrun'⟩ := hv.run hrun
    cases fuel with
    | zero => cases hrun'
    | succ fuel =>
      have h : p + 16 ≤ mem.length := by
        by_contra hshort
        rw [findNextLoop_short fuel hlt (by omega)] at hrun'
        cases hrun'
      have hlen := leAt_lt mem (p + 8)
      refine ⟨h, fun htag => ?_, fun htag hmax => ?_⟩
      · by_contra hbig
        have hhop : hop mem p < 16 := by
          unfold hop
          omega
        rw [findNextLoop_step fuel h, if_neg (by omega), if_pos htag] at hrun'
        obtain rfl := Except.ok.inj hrun'
        obtain ⟨len, hread, hle⟩ := hin p rfl
        rw [stdTlvLen_eq h] at hread
        obtain rfl := Except.ok.inj hread
        omega
      · have hzero : hop mem p = 0 := by simp [hop, hmax]
        rw [findNextLoop_stuck h htag hzero] at hrun'
        cases hrun'
  · intro hsafe
    exact hsafe.run .start (by rw [Nat.sub_zero]; exact Nat.lt_succ_self _)

/-- Three buffers on which the search goes wrong: too short for a header; a TLV with total length
0; a TLV returned whose value does not fit in memory. -/
theorem findNext_unsafe :
    stdTlvFindNext .little [1, 2, 3, 4, 5, 6, 7, 8] (some 0) 8 0 = .error (.badPointer 8) ∧
      (∀ fuel, findNextLoop .little (leBytes 8 7 ++ leBytes 8 (2 ^ 64 - 16)) 0 fuel (some 0) 16 =
        .error .diverges) ∧
      stdTlvFindNext .little (leBytes 8 0 ++ leBytes 8 (2 ^ 64 - 8)) (some 0) 16 0 =
        .ok (some 0, 16) ∧
      stdTlvLen .little (leBytes 8 0 ++ leBytes 8 (2 ^ 64 - 8)) 0 = .ok (2 ^ 64 - 8) := by
  refine ⟨by decide +kernel, fun fuel => ?_, by decide +kernel, by decide +kernel⟩
  exact findNextLoop_stuck (p := 0) (by decide) (by decide +kernel) (by decide +kernel) fuel

theorem findNext_safe_iff_sample : ∃ r,
    stdTlvFindNext .little (leBytes 8 1 ++ leBytes 8 2 ++ [10, 11]) (some 0) 18 3 = .ok r ∧
      Inside .little (leBytes 8 1 ++ leBytes 8 2 ++ [10, 11]) r := by
  refine (findNext_safe_iff .little (leBytes 8 1 ++ leBytes 8 2 ++ [10, 11]) (by decide) 3).mpr ?_
  have hv : ∀ p, Visited (leBytes 8 1 ++ leBytes 8 2 ++ [10, 11]) 3 p → p = 0 ∨ p = 18 := by
    intro p h
    induction h with
    | start => exact .inl rfl
    | hop _ h _ _ ih =>
      rcases ih with rfl | rfl
      · exact .inr (by decide +kernel)
      · exact absurd h (by decide)
  intro p hp hlt
  rcases hv p hp with rfl | rfl
  · exact ⟨by decide, fun h => absurd h (by decide +kernel), fun _ => by decide +kernel⟩
  · exact absurd hlt (by decide)

end OpxCommonUtils.Tlv
