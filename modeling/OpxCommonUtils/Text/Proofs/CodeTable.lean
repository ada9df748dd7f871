import OpxCommonUtils.Text.CodeTable
import Mathlib.Data.List.Nodup

/-!
# Tables of texts and codes

The comparison of a bounded number of characters finds the first entry whose text begins with the
text (`textToCodeLoop_bounded`), that of whole texts the first entry whose text is the text. They
agree when no entry before the right one begins with the text.
-/

namespace OpxCommonUtils.Text

/-- What a table with distinct codes and texts has to do with a text: an entry with the text and its
code lead to each other on both paths, and a text of no entry gives `-1`. -/
structure Inverse (table : List StdCodeText) (text : StdString) : Prop where
  code_to_text : ∀ e ∈ table, e.text = text → stdCodeToText e.code (some table) = some text
  text_to_code : ∀ e ∈ table, e.text = text → stdTextToCode text 0 (some table) = e.intCode ∧
    stdTextToCode text (.ofNat text.length) (some table) = e.intCode
  absent : (∀ e ∈ table, e.text ≠ text) → stdTextToCode text 0 (some table) = -1 ∧
    stdTextToCode text (.ofNat text.length) (some table) = -1

/-- Unless `text` is empty, the first entry that begins with it is the one that has it. Where the text
is not in the table, that entry may also have the code that `-1` is as an `unsigned int`. -/
def Unshadowed (table : List StdCodeText) (text : StdString) : Prop :=
  text ≠ [] → ∀ before e after, table = before ++ e :: after → text <+: e.text →
    (∀ e' ∈ before, ¬ text <+: e'.text) →
      e.text = text ∨ e.code = 0xFFFFFFFF ∧ ∀ e' ∈ table, e'.text ≠ text

theorem strcmp_eq_zero : ∀ {s t : StdString}, strcmp s t = 0 ↔ s = t := by
  intro s
  induction s with
  | nil =>
    intro t
    cases t <;> simp [strcmp]
  | cons c s ih =>
    intro t
    cases t with
    | nil => simp [strcmp]
    | cons d t =>
      rw [strcmp]
      by_cases hcd : c = d
      · rw [if_pos hcd, ih, hcd, List.cons.injEq, and_iff_right rfl]
      · rw [if_neg hcd]
        split <;> simp [hcd]

/-- A comparison of as many characters as the second string has. -/
theorem strncmp_eq_zero : ∀ {s t : StdString}, strncmp s t t.length = 0 ↔ t <+: s := by
  intro s
  induction s with
  | nil =>
    intro t
    cases t <;> simp [strncmp]
  | cons c s ih =>
    intro t
    cases t with
    | nil => simp [strncmp]
    | cons d t =>
      rw [List.length_cons, strncmp, List.cons_prefix_cons]
      by_cases hcd : c = d
      · rw [if_pos hcd, ih, hcd, and_iff_right rfl]
      · rw [if_neg hcd]
        split <;> simp [Ne.symm hcd]

variable {table : List StdCodeText} {text : StdString}

theorem textToCodeLoop_exact : textToCodeLoop text 0 table =
    ((table.find? fun e => e.text = text).map StdCodeText.intCode).getD (-1) := by
  induction table with
  | nil => rfl
  | cons e table ih =>
    rw [textToCodeLoop, if_neg (by simp), List.find?_cons]
    by_cases h : e.text = text
    · rw [if_pos (strcmp_eq_zero.mpr h)]
      simp [h]
    · rw [if_neg (mt strcmp_eq_zero.mp h), ih]
      simp [h]

theorem textToCodeLoop_bounded (hlen : text.length < 2 ^ 32) (hne : text ≠ []) :
    textToCodeLoop text (.ofNat text.length) table =
      ((table.find? fun e => text <+: e.text).map StdCodeText.intCode).getD (-1) := by
  have hsz : (UInt32.ofNat text.length).toNat = text.length := UInt32.toNat_ofNat_of_lt' hlen
  have hpos : UInt32.ofNat text.length ≠ 0 := by
    intro h0
    rw [h0] at hsz
    exact hne (List.length_eq_zero_iff.mp hsz.symm)
  induction table with
  | nil => rfl
  | cons e table ih =>
    rw [textToCodeLoop, if_pos hpos, List.find?_cons, hsz]
    by_cases h : text <+: e.text
    · rw [if_pos (strncmp_eq_zero.mpr h)]
      simp [h]
    · rw [if_neg (mt strncmp_eq_zero.mp h), ih]
      simp [h]

theorem codeToTextLoop_eq {e : StdCodeText} (hcodes : (table.map StdCodeText.code).Nodup)
    (he : e ∈ table) : codeToTextLoop e.code table = some e.text := by
  induction table with
  | nil => simp at he
  | cons e' table ih =>
    rw [List.map_cons, List.nodup_cons] at hcodes
    rw [codeToTextLoop]
    rcases List.mem_cons.mp he with rfl | he
    · rw [if_pos rfl]
    · have hne : e'.code ≠ e.code := fun heq =>
        hcodes.1 (heq.symm ▸ List.mem_map_of_mem (f := StdCodeText.code) he)
      rw [if_neg hne, ih hcodes.2 he]

/-- The entry of a text is the only one. -/
theorem find?_text {e : StdCodeText} (htexts : (table.map StdCodeText.text).Nodup) (he : e ∈ table)
    (h : e.text = text) : (table.find? fun e => e.text = text) = some e := by
  obtain ⟨e', he'⟩ : ∃ e', (table.find? fun e => e.text = text) = some e' :=
    Option.isSome_iff_exists.mp (List.find?_isSome.mpr ⟨e, he, by simpa using h⟩)
  have htext : e'.text = e.text := by
    have := List.find?_some he'
    simp_all
  rw [he', List.inj_on_of_nodup_map htexts (List.mem_of_find?_eq_some he') he htext]

theorem find?_absent (h : ∀ e ∈ table, e.text ≠ text) :
    (table.find? fun e => e.text = text) = none :=
  List.find?_eq_none.mpr fun e he => by simpa using h e he

/-- The first entry that begins with a text. -/
theorem find?_begins {e : StdCodeText} :
    (table.find? fun e => text <+: e.text) = some e ↔ text <+: e.text ∧
      ∃ before after, table = before ++ e :: after ∧ ∀ e' ∈ before, ¬ text <+: e'.text := by
  rw [List.find?_eq_some_iff_append]
  simp

theorem intCode_inj {e e' : StdCodeText} : e.intCode = e'.intCode ↔ e.code = e'.code := by
  rw [StdCodeText.intCode, StdCodeText.intCode, BitVec.toInt_inj, UInt32.toBitVec_inj]

theorem intCode_eq_neg_one {e : StdCodeText} : e.intCode = -1 ↔ e.code = 0xFFFFFFFF := by
  have h : (⟨0xFFFFFFFF, []⟩ : StdCodeText).intCode = -1 := by decide
  rw [← h, intCode_inj]

/-- For a table with distinct codes and distinct texts and every text that an `unsigned int` can
count, the paths agree exactly when no longer text stands in the way. -/
theorem inverse_iff (hcodes : (table.map StdCodeText.code).Nodup)
    (htexts : (table.map StdCodeText.text).Nodup) (hlen : text.length < 2 ^ 32) :
    Inverse table text ↔ Unshadowed table text := by
  constructor
  · rintro ⟨-, hentry, habsent⟩ hne before e after htable hpre hfirst
    have hfind := find?_begins.mpr ⟨hpre, before, after, htable, hfirst⟩
    have hbounded : textToCodeLoop text (.ofNat text.length) table = e.intCode := by
      rw [textToCodeLoop_bounded hlen hne, hfind]
      rfl
    have he : e ∈ table := htable ▸ by simp
    by_cases hin : ∃ e' ∈ table, e'.text = text
    · obtain ⟨e', he', htext⟩ := hin
      have hcode : e.code = e'.code := intCode_inj.mp (hbounded.symm.trans (hentry e' he' htext).2)
      exact .inl (List.inj_on_of_nodup_map hcodes he he' hcode ▸ htext)
    · simp only [not_exists, not_and] at hin
      exact .inr ⟨intCode_eq_neg_one.mp (hbounded.symm.trans (habsent hin).2), hin⟩
  · intro h
    have hexact (rc : Int) (hrc : stdTextToCode text 0 (some table) = rc)
        (hbounded : text ≠ [] → ((table.find? fun e => text <+: e.text).map
          StdCodeText.intCode).getD (-1) = rc) :
        stdTextToCode text 0 (some table) = rc ∧
          stdTextToCode text (.ofNat text.length) (some table) = rc := by
      refine ⟨hrc, ?_⟩
      by_cases hne : text = []
      · rw [hne] at hrc ⊢
        exact hrc
      · exact (textToCodeLoop_bounded hlen hne).trans (hbounded hne)
    refine ⟨fun e he htext => htext ▸ codeToTextLoop_eq hcodes he, fun e he htext => ?_,
      fun habsent => ?_⟩
    · refine hexact _ (by rw [stdTextToCode, textToCodeLoop_exact, find?_text htexts he htext]; rfl)
        fun hne => ?_
      cases hfind : table.find? fun e => text <+: e.text with
      | none => exact absurd (List.find?_eq_none.mp hfind e he) (by simp [htext])
      | some e' =>
        obtain ⟨hpre, before, after, htable, hfirst⟩ := find?_begins.mp hfind
        have he' : e' ∈ table := List.mem_of_find?_eq_some hfind
        rcases h hne before e' after htable hpre hfirst with htext' | ⟨-, habsent⟩
        · rw [List.inj_on_of_nodup_map htexts he' he (htext'.trans htext.symm)]
          rfl
        · exact absurd htext (habsent e he)
    · refine hexact _ (by rw [stdTextToCode, textToCodeLoop_exact, find?_absent habsent]; rfl)
        fun hne => ?_
      cases hfind : table.find? fun e => text <+: e.text with
      | none => rfl
      | some e' =>
        obtain ⟨hpre, before, after, htable, hfirst⟩ := find?_begins.mp hfind
        rcases h hne before e' after htable hpre hfirst with htext' | ⟨hcode, -⟩
        · exact absurd htext' (habsent e' (List.mem_of_find?_eq_some hfind))
        · exact intCode_eq_neg_one.mpr hcode

/-- With `e1` before `e10`, `e1` is found. -/
theorem inverse_sample : Inverse [⟨1, [101, 49]⟩, ⟨10, [101, 49, 48]⟩] [101, 49] := by
  refine (inverse_iff (by decide) (by decide) (by decide)).mpr ?_
  rintro - before e after htable hpre hfirst
  cases before with
  | nil =>
    left
    rw [← (List.cons.inj htable).1]
  | cons e' before =>
    have hnot := hfirst e' List.mem_cons_self
    rw [← (List.cons.inj htable).1] at hnot
    exact absurd (by decide) hnot

/-- With `e10` before `e1`, the bounded path takes `e1` for `e10`. -/
theorem longer_text_found : ¬ ∀ table : List StdCodeText, (table.map StdCodeText.code).Nodup →
    (table.map StdCodeText.text).Nodup → ∀ text : StdString, text.length < 2 ^ 32 →
      Inverse table text := by
  intro h
  have hcode := ((h [⟨10, [101, 49, 48]⟩, ⟨1, [101, 49]⟩] (by decide) (by decide) [101, 49]
    (by decide)).text_to_code ⟨1, [101, 49]⟩ (by simp) rfl).2
  exact absurd hcode (by decide)

end OpxCommonUtils.Text
