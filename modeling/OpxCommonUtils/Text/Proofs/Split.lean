import OpxCommonUtils.Misc.Splitting
import OpxCommonUtils.Text.Split

/-!
# Splitting loses nothing

The scan of `std_parse_string` cuts the string as `Splitting` says (`parseStringLoop_spec`), and
the three ways to read a handle agree on its tokens.
-/

namespace OpxCommonUtils.Text

open StdString

variable {s d : StdString}

/-! ## The scan -/

/-- Behind the end of the string the scan stops. -/
theorem parseStringLoop_end {data : StdString} {ix : Nat} (h : data.length ≤ ix) (fuel : Nat)
    (vect : List StdString) :
    stdParseStringLoop data d (fuel + 1) ix vect = .ok (some vect) := by
  rw [stdParseStringLoop, if_neg (Nat.not_lt.mpr h)]

/-- The scan of what is behind `p`. -/
theorem parseStringLoop_spec (hd : d ≠ []) :
    ∀ (fuel : Nat) (p r : StdString) (vect : List StdString), r.length < fuel → 0 ∉ r →
      ∃ ts, Splitting d r ts ∧
        stdParseStringLoop (p ++ r) d fuel p.length vect = .ok (some (vect ++ ts)) := by
  intro fuel
  induction fuel with
  | zero => intro p r vect hfuel; omega
  | succ fuel ih =>
    intro p r vect hfuel hnul
    by_cases hr : r = []
    · subst hr
      refine ⟨[], .done, ?_⟩
      rw [parseStringLoop_end (by simp)]
      simp
    · have hpos : 0 < r.length := List.length_pos_of_ne_nil hr
      have hlt : p.length < (p ++ r).length := by simpa using hpos
      rw [stdParseStringLoop, if_pos hlt, find_append]
      cases hix : indexOf d r with
      | none =>
        -- no delimiter is left: the rest is the last token
        have hsub : (p ++ r).substr p.length ((p ++ r).length - p.length) = some r := by
          simpa using substr_append p r []
        obtain ⟨fuel, rfl⟩ : ∃ n, fuel = n + 1 := ⟨fuel - 1, by omega⟩
        refine ⟨[r], .last hr (indexOf_eq_none hix), ?_⟩
        simp only [Option.map_none, Option.getD_none, hsub]
        rw [parseStringLoop_end (by simp), cStr_of_not_mem hnul]
      | some n =>
        obtain ⟨a, b, rfl, rfl, ha⟩ := indexOf_eq_some hd hix
        have hsub : (p ++ (a ++ (d ++ b))).substr p.length (p.length + a.length - p.length) =
            some a := by
          rw [Nat.add_sub_cancel_left]
          exact substr_append p a (d ++ b)
        have hnula : 0 ∉ a := fun h => hnul (List.mem_append_left _ h)
        have hnulb : 0 ∉ b :=
          fun h => hnul (List.mem_append_right _ (List.mem_append_right _ h))
        have hdlen : 0 < d.length := List.length_pos_of_ne_nil hd
        have hfuel' : b.length < fuel := by
          simp only [List.length_append] at hfuel
          omega
        obtain ⟨ts, hts, heq⟩ := ih (p ++ a ++ d) b (vect ++ [a]) hfuel' hnulb
        refine ⟨a :: ts, .piece ha hts, ?_⟩
        simp only [Option.map_some, Option.getD_some, hsub, cStr_of_not_mem hnula]
        simpa [Nat.add_assoc] using heq

/-- A string without NUL is cut at every delimiter. -/
theorem parseString_splitting (hs : 0 ∉ s) (hd : d ≠ []) :
    ∃ ts, Splitting d s ts ∧ stdParseString s d = .ok (some ts) := by
  obtain ⟨ts, hts, heq⟩ :=
    parseStringLoop_spec hd (s.length + 1) [] s [] (Nat.lt_succ_self _) hs
  exact ⟨ts, hts, heq⟩

/-! ## Reading a handle -/

section

variable {ts : List StdString} (hnul : ∀ t ∈ ts, 0 ∉ t)

include hnul

theorem parseStringAt_eq (index : Nat) : stdParseStringAt ts index = ts[index]? := by
  rw [stdParseStringAt]
  by_cases h : index < ts.length
  · rw [dif_pos h, List.getElem?_eq_getElem h]
    exact congrArg some (cStr_of_not_mem (hnul _ (List.get_mem ts ⟨index, h⟩)))
  · rw [dif_neg h, List.getElem?_eq_none (Nat.not_lt.mp h)]

theorem parseStringNext_eq (index : Nat) :
    stdParseStringNext ts index =
      (ts[index]?, if index < ts.length then index + 1 else index) := by
  rw [stdParseStringNext, parseStringAt_eq hnul]
  simp

theorem readTokens_eq :
    ∀ (fuel index : Nat), index ≤ ts.length → ts.length < fuel + index →
      readTokens ts fuel index = .ok (ts.drop index) := by
  intro fuel
  induction fuel with
  | zero =>
    intro index hle h
    omega
  | succ fuel ih =>
    intro index hle h
    rw [readTokens, parseStringNext_eq hnul]
    by_cases hlt : index < ts.length
    · rw [List.getElem?_eq_getElem hlt, if_pos hlt]
      dsimp only
      rw [ih (index + 1) hlt (by omega), List.drop_eq_getElem_cons hlt]
      rfl
    · rw [List.getElem?_eq_none (Nat.not_lt.mp hlt), List.drop_eq_nil_of_le (Nat.not_lt.mp hlt)]

end

/-- `std_parse_string` splits every string: no token contains the delimiter, and joined with it the
tokens give the string, or the string without a delimiter at its end. The ways to read the handle
enumerate the same tokens. -/
theorem stdParseString_joins (hs : 0 ∉ s) (hd : d ≠ []) :
    ∃ ts, stdParseString s d = .ok (some ts) ∧
      stdParseStringNumTokens ts = ts.length ∧
      (∀ index, stdParseStringAt ts index = ts[index]?) ∧
      (∀ index, stdParseStringNext ts index =
        (ts[index]?, if index < ts.length then index + 1 else index)) ∧
      readTokens ts (stdParseStringNumTokens ts + 1) 0 = .ok ts ∧
      (∀ t ∈ ts, ¬ d <:+: t) ∧
      (d.intercalate ts = s ∨ d.intercalate ts ++ d = s) ∧
      (ts = [] ↔ s = []) := by
  obtain ⟨ts, hsplit, hparse⟩ := parseString_splitting hs hd
  have hnul : ∀ t ∈ ts, 0 ∉ t := fun t ht h => hs (hsplit.mem_of_mem t ht h)
  have hread := readTokens_eq hnul (ts.length + 1) 0 (Nat.zero_le _) (by omega)
  rw [List.drop_zero] at hread
  exact ⟨ts, hparse, rfl, parseStringAt_eq hnul, parseStringNext_eq hnul, hread,
    hsplit.not_infix, hsplit.intercalate, hsplit.eq_nil_iff hd⟩

/-- A delimiter that overlaps itself, between two others and at the end. -/
theorem stdParseString_joins_overlapping :
    ∃ ts, stdParseString [97, 97, 97, 98, 97, 97] [97, 97] = .ok (some ts) ∧
      stdParseStringNumTokens ts = ts.length ∧
      (∀ index, stdParseStringAt ts index = ts[index]?) ∧
      (∀ index, stdParseStringNext ts index =
        (ts[index]?, if index < ts.length then index + 1 else index)) ∧
      readTokens ts (stdParseStringNumTokens ts + 1) 0 = .ok ts ∧
      (∀ t ∈ ts, ¬ [97, 97] <:+: t) ∧
      (([97, 97] : StdString).intercalate ts = [97, 97, 97, 98, 97, 97] ∨
        ([97, 97] : StdString).intercalate ts ++ [97, 97] = [97, 97, 97, 98, 97, 97]) ∧
      (ts = [] ↔ ([97, 97, 97, 98, 97, 97] : StdString) = []) :=
  stdParseString_joins (by decide) (by decide)

end OpxCommonUtils.Text
