import Mathlib.Data.List.Lex
import Mathlib.Order.BooleanAlgebra.Basic
import Mathlib.Tactic.IntervalCases

/-!
# Bit strings

A key of variable length is a `List Bool`, most significant bit first. The first bits of a bit
stream (`firstBits`) are the keys a stream has at each length, and the lexicographic order of
`List Bool` puts a string before its extensions and compares the first bit that differs. Bit
streams come from byte streams through `bitAt`.
-/

namespace OpxCommonUtils

/-- The first `n` bits of a stream. -/
def firstBits (q : Nat → Bool) (n : Nat) : List Bool := (List.range n).map q

@[simp] theorem length_firstBits (q : Nat → Bool) (n : Nat) : (firstBits q n).length = n := by
  simp [firstBits]

@[simp] theorem firstBits_zero (q : Nat → Bool) : firstBits q 0 = [] := rfl

theorem firstBits_succ (q : Nat → Bool) (n : Nat) :
    firstBits q (n + 1) = firstBits q n ++ [q n] := by
  simp [firstBits, List.range_succ]

theorem firstBits_eq_iff {q q' : Nat → Bool} {n : Nat} :
    firstBits q n = firstBits q' n ↔ ∀ i < n, q i = q' i := by
  simp [firstBits]

theorem take_firstBits (q : Nat → Bool) {m n : Nat} (h : m ≤ n) :
    (firstBits q n).take m = firstBits q m := by
  simp [firstBits, ← List.map_take, List.take_range, Nat.min_eq_left h]

theorem firstBits_isPrefix (q : Nat → Bool) {m n : Nat} (h : m ≤ n) :
    firstBits q m <+: firstBits q n := by
  rw [← take_firstBits q h]
  exact List.take_prefix _ _

/-- A prefix of a stream's first bits is itself the stream's first bits. -/
theorem eq_firstBits_of_isPrefix {q : Nat → Bool} {n : Nat} {k : List Bool}
    (h : k <+: firstBits q n) : k = firstBits q k.length := by
  have hlen := h.length_le
  rw [length_firstBits] at hlen
  rw [List.prefix_iff_eq_take.mp h, take_firstBits q hlen, length_firstBits]

/-- The bit that follows a prefix of a stream's first bits is the stream's. -/
theorem bit_of_snoc_isPrefix {q : Nat → Bool} {n : Nat} {k : List Bool} {b : Bool}
    (h : k ++ [b] <+: firstBits q n) : q k.length = b := by
  have heq := eq_firstBits_of_isPrefix h
  rw [List.length_append, List.length_singleton, firstBits_succ] at heq
  have hlast := (List.append_inj' heq rfl).2
  exact (List.cons.inj hlast).1.symm

/-- Extensions of a string by different bits are different. -/
theorem not_both_snoc_isPrefix {k e : List Bool} {b : Bool} (h : k ++ [b] <+: e)
    (h' : k ++ [!b] <+: e) : False := by
  have heq := List.prefix_of_prefix_length_le h h' (by simp)
  have := heq.eq_of_length (by simp)
  simp at this

/-- A string comes before its proper extensions. -/
theorem lt_of_isPrefix {k e : List Bool} (h : k <+: e) (hne : k.length < e.length) : k < e := by
  obtain ⟨s, rfl⟩ := h
  cases s with
  | nil => simp at hne
  | cons b s =>
    have : k ++ [] < k ++ b :: s := List.append_left_lt (List.nil_lt_cons b s)
    simpa using this

theorem le_of_isPrefix {k e : List Bool} (h : k <+: e) : k ≤ e := by
  rcases Nat.lt_or_ge k.length e.length with hlt | hge
  · exact (lt_of_isPrefix h hlt).le
  · exact (h.eq_of_length_le hge).le

/-- The extensions by `false` come before the extensions by `true`. -/
theorem lt_of_branch {k a b : List Bool} (ha : k ++ [false] <+: a) (hb : k ++ [true] <+: b) :
    a < b := by
  obtain ⟨s, rfl⟩ := ha
  obtain ⟨t, rfl⟩ := hb
  have hcons : (false :: s) < (true :: t) := List.cons_lt_cons_iff.mpr (.inl (by decide))
  simpa using List.append_left_lt hcons

/-! ## Bytes -/

/-- Bit `i` of a byte stream, most significant bit of each byte first. -/
def bitAt (a : Nat → UInt8) (i : Nat) : Bool := (a (i / 8)).toNat.testBit (7 - i % 8)

theorem bitAt_byte (a : Nat → UInt8) (i j : Nat) (hj : j < 8) :
    bitAt a (8 * i + j) = (a i).toNat.testBit (7 - j) := by
  have hdiv : (8 * i + j) / 8 = i := by omega
  have hmod : (8 * i + j) % 8 = j := by omega
  rw [bitAt, hdiv, hmod]

/-- Two bytes are equal when their eight bits are. -/
theorem byte_eq_iff (a b : Nat → UInt8) (i : Nat) :
    a i = b i ↔ ∀ j < 8, bitAt a (8 * i + j) = bitAt b (8 * i + j) := by
  constructor
  · intro h j hj
    rw [bitAt_byte a i j hj, bitAt_byte b i j hj, h]
  · intro h
    apply UInt8.toNat_inj.mp
    apply Nat.eq_of_testBit_eq
    intro k
    rcases Nat.lt_or_ge k 8 with hk | hk
    · have hj := h (7 - k) (by omega)
      rw [bitAt_byte a i _ (by omega), bitAt_byte b i _ (by omega)] at hj
      have hsub : 7 - (7 - k) = k := by omega
      rwa [hsub] at hj
    · have hpow : 2 ^ 8 ≤ 2 ^ k := Nat.pow_le_pow_right (by decide) hk
      rw [Nat.testBit_lt_two_pow (Nat.lt_of_lt_of_le (a i).toNat_lt hpow),
        Nat.testBit_lt_two_pow (Nat.lt_of_lt_of_le (b i).toNat_lt hpow)]

end OpxCommonUtils
