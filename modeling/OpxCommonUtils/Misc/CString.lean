import OpxCommonUtils.Misc.Heap
import Mathlib.Data.List.Basic
import Mathlib.Data.List.TakeWhile

/-!
# Character strings

A `std::string` is the list of its characters. The member functions that answer with `npos` or
throw `std::out_of_range` answer with `none`.
-/

namespace OpxCommonUtils

/-- The characters of a `std::string`, or those of a `char *` before the NUL. -/
abbrev StdString := List UInt8

namespace StdString

/-- What is left of a string behind its `c_str`: the characters before the first NUL. -/
def cStr (s : StdString) : StdString := s.takeWhile (· ≠ 0)

/-- The first place of a string at which `pat` begins. -/
def indexOf (pat : StdString) : StdString → Option Nat
  | [] => if pat = [] then some 0 else none
  | c :: s => if pat <+: c :: s then some 0 else (indexOf pat s).map (· + 1)

/-- `find(pat, pos)`. -/
def find (s pat : StdString) (pos : Nat) : Option Nat :=
  if pos ≤ s.length then (indexOf pat (s.drop pos)).map (pos + ·) else none

/-- `substr(pos, n)`. -/
def substr (s : StdString) (pos n : Nat) : Option StdString :=
  if pos ≤ s.length then some ((s.drop pos).take n) else none

/-- Whether `compare(e - n, n, pat)` is zero, where `n` is the length of `pat`. A difference below
zero wraps to a position beyond every end. -/
def endsAt (s pat : StdString) (e : Nat) : Option Bool :=
  if pat.length ≤ e then
    (s.substr (e - pat.length) pat.length).map fun sub => decide (sub = pat)
  else none

/-- `replace(pos, n, t)` at a position of the string. -/
def replace (s : StdString) (pos n : Nat) (t : StdString) : StdString :=
  s.take pos ++ t ++ s.drop (pos + n)

theorem cStr_of_not_mem {s : StdString} (h : 0 ∉ s) : s.cStr = s := by
  rw [cStr, List.takeWhile_eq_self_iff]
  intro c hc
  have hne : c ≠ 0 := fun heq => h (heq ▸ hc)
  simpa using hne

/-- A search that begins behind `p`. -/
theorem find_append (p r pat : StdString) :
    find (p ++ r) pat p.length = (indexOf pat r).map (p.length + ·) := by
  rw [find, if_pos (by simp), List.drop_left]

theorem indexOf_eq_none {s pat : StdString} (h : indexOf pat s = none) : ¬ pat <:+: s := by
  induction s with
  | nil =>
    intro hin
    rw [List.infix_nil] at hin
    rw [indexOf, if_pos hin] at h
    cases h
  | cons c s ih =>
    rw [indexOf] at h
    split at h
    · cases h
    · rename_i hpre
      rw [List.infix_cons_iff, not_or]
      exact ⟨hpre, ih (Option.map_eq_none_iff.mp h)⟩

/-- The place that a search finds is the first: the pattern is not before it. -/
theorem indexOf_eq_some {s pat : StdString} {n : Nat} (hpat : pat ≠ [])
    (h : indexOf pat s = some n) :
    ∃ a b, s = a ++ (pat ++ b) ∧ a.length = n ∧ ¬ pat <:+: a := by
  induction s generalizing n with
  | nil =>
    rw [indexOf, if_neg hpat] at h
    cases h
  | cons c s ih =>
    rw [indexOf] at h
    split at h
    · rename_i hpre
      cases h
      obtain ⟨b, hb⟩ := hpre
      exact ⟨[], b, hb.symm, rfl, by rwa [List.infix_nil]⟩
    · rename_i hpre
      obtain ⟨m, hm, rfl⟩ := Option.map_eq_some_iff.mp h
      obtain ⟨a, b, rfl, rfl, ha⟩ := ih hm
      refine ⟨c :: a, b, rfl, rfl, ?_⟩
      rw [List.infix_cons_iff, not_or]
      refine ⟨?_, ha⟩
      intro hbegin
      exact hpre (hbegin.trans (List.prefix_append (c :: a) (pat ++ b)))

variable {c : UInt8}

theorem indexOf_not_mem {s : StdString} (h : c ∉ s) : indexOf [c] s = none := by
  induction s with
  | nil => rfl
  | cons a s ih =>
    rw [List.mem_cons, not_or] at h
    have hne : ¬ [c] <+: a :: s := by simpa using h.1
    rw [indexOf, if_neg hne, ih h.2]
    rfl

theorem indexOf_append {a : StdString} (h : c ∉ a) (b : StdString) :
    indexOf [c] (a ++ c :: b) = some a.length := by
  induction a with
  | nil => simp [indexOf]
  | cons x a ih =>
    rw [List.mem_cons, not_or] at h
    have hne : ¬ [c] <+: x :: (a ++ c :: b) := by simpa using h.1
    rw [List.cons_append, indexOf, if_neg hne, ih h.2]
    rfl

theorem indexOf_isSome {s : StdString} : (indexOf [c] s).isSome ↔ c ∈ s := by
  constructor
  · intro h
    by_contra hout
    rw [indexOf_not_mem hout] at h
    cases h
  · intro h
    obtain ⟨a, b, rfl, ha⟩ := List.eq_append_cons_of_mem h
    rw [indexOf_append ha]
    rfl

theorem indexOf_eq_zero {s : StdString} : indexOf [c] s = some 0 ↔ s.head? = some c := by
  cases s with
  | nil => simp [indexOf]
  | cons a s =>
    by_cases h : c = a
    · simp [indexOf, h]
    · have hne : ¬ [c] <+: a :: s := by simpa using h
      rw [indexOf, if_neg hne]
      simp [Ne.symm h]

/-- Whether the character before the end of `p` is `c`, for a string that begins with `p`. -/
theorem endsAt_append {p : StdString} (hp : p ≠ []) (r : StdString) :
    endsAt (p ++ r) [c] p.length = some (decide (p.getLast? = some c)) := by
  obtain ⟨q, a, rfl⟩ := p.eq_nil_or_concat'.resolve_left hp
  simp [endsAt, substr]

theorem endsAt_zero (s : StdString) : endsAt s [c] 0 = none := rfl

theorem substr_append (p a b : StdString) : substr (p ++ (a ++ b)) p.length a.length = some a := by
  rw [substr, if_pos (by simp), List.drop_left, List.take_left]

theorem replace_append (p a b t : StdString) :
    replace (p ++ (a ++ b)) p.length a.length t = p ++ (t ++ b) := by
  rw [replace, List.take_left, ← List.append_assoc p a b]
  have hlen : p.length + a.length = (p ++ a).length := by simp
  rw [hlen, List.drop_left, List.append_assoc]

end StdString

end OpxCommonUtils
