import Mathlib.Data.List.Basic

/-!
# Settings in sections

A document in sections is a sequence of events: a section begins, or a key gets a value in the
section it stands in. What it says is the last value of each key of each section. Two sequences
`Agree` when they say the same and end in the same section, wherever they stand; agreement is kept
when sequences are put together (`Agree.flatMap`), and where it fails some context shows it
(`exists_context`).
-/

namespace OpxCommonUtils

/-- An event of a document in sections. -/
inductive SectionEvent (G K V : Type) where
  | enter (group : G)
  | set (key : K) (value : V)
  deriving DecidableEq

/-- The value that a key was given last. -/
def lastValue {X V : Type} [DecidableEq X] : List (X × V) → X → Option V
  | [], _ => none
  | a :: l, x => (lastValue l x).or (if a.1 = x then some a.2 else none)

theorem lastValue_append {X V : Type} [DecidableEq X] (l m : List (X × V)) (x : X) :
    lastValue (l ++ m) x = (lastValue m x).or (lastValue l x) := by
  induction l with
  | nil => simp [lastValue]
  | cons a l ih => rw [List.cons_append, lastValue, ih, lastValue, Option.or_assoc]

theorem exists_lastValue {X V : Type} [DecidableEq X] {l : List (X × V)} (h : l ≠ []) :
    ∃ x, lastValue l x ≠ none := by
  obtain ⟨m, a, rfl⟩ := l.eq_nil_or_concat'.resolve_left h
  exact ⟨a.1, by simp [lastValue_append, lastValue]⟩

theorem mem_of_lastValue {X V : Type} [DecidableEq X] {l : List (X × V)} {x : X} {v : V}
    (h : lastValue l x = some v) : (x, v) ∈ l := by
  induction l with
  | nil => cases h
  | cons a l ih =>
    rw [lastValue, Option.or_eq_some_iff] at h
    rcases h with h | ⟨-, h⟩
    · exact List.mem_cons_of_mem a (ih h)
    · split at h
      · rename_i hx
        obtain rfl := Option.some.inj h
        exact hx ▸ List.mem_cons_self
      · cases h

namespace SectionEvent

variable {G K V : Type}

/-- The section in which events leave a reader who was in `g`. -/
def sectionAfter (g : G) : List (SectionEvent G K V) → G
  | [] => g
  | enter g' :: es => sectionAfter g' es
  | set _ _ :: es => sectionAfter g es

/-- The settings that events make for a reader who is in `g`. -/
def settings (g : G) : List (SectionEvent G K V) → List ((G × K) × V)
  | [] => []
  | enter g' :: es => settings g' es
  | set k v :: es => ((g, k), v) :: settings g es

@[simp] theorem sectionAfter_append (g : G) (es fs : List (SectionEvent G K V)) :
    sectionAfter g (es ++ fs) = sectionAfter (sectionAfter g es) fs := by
  induction es generalizing g with
  | nil => rfl
  | cons e es ih => cases e <;> simp [sectionAfter, ih]

@[simp] theorem settings_append (g : G) (es fs : List (SectionEvent G K V)) :
    settings g (es ++ fs) = settings g es ++ settings (sectionAfter g es) fs := by
  induction es generalizing g with
  | nil => rfl
  | cons e es ih => cases e <;> simp [settings, sectionAfter, ih]

theorem mem_settings {g : G} {es : List (SectionEvent G K V)} {a : (G × K) × V}
    (h : a ∈ settings g es) : set a.1.2 a.2 ∈ es := by
  induction es generalizing g with
  | nil => cases h
  | cons e es ih =>
    cases e with
    | enter g' => exact List.mem_cons_of_mem _ (ih h)
    | set k v =>
      rcases List.mem_cons.mp h with rfl | h
      · exact List.mem_cons_self
      · exact List.mem_cons_of_mem _ (ih h)

section

variable [DecidableEq G] [DecidableEq K]

/-- Events that say the same and end in the same section, wherever they stand. -/
def Agree (es fs : List (SectionEvent G K V)) : Prop :=
  ∀ g, sectionAfter g es = sectionAfter g fs ∧
    ∀ x, lastValue (settings g es) x = lastValue (settings g fs) x

theorem Agree.refl (es : List (SectionEvent G K V)) : Agree es es := fun _ => ⟨rfl, fun _ => rfl⟩

theorem Agree.append {es fs es' fs' : List (SectionEvent G K V)} (h : Agree es fs)
    (h' : Agree es' fs') : Agree (es ++ es') (fs ++ fs') := by
  intro g
  obtain ⟨hsec, hlast⟩ := h g
  obtain ⟨hsec', hlast'⟩ := h' (sectionAfter g fs)
  constructor
  · rw [sectionAfter_append, sectionAfter_append, hsec, hsec']
  · intro x
    rw [settings_append, settings_append, lastValue_append, lastValue_append, hsec, hlast, hlast']

/-- Documents agree when their parts do. -/
theorem Agree.flatMap {α : Type} {l : List α} {f f' : α → List (SectionEvent G K V)}
    (h : ∀ a ∈ l, Agree (f a) (f' a)) : Agree (l.flatMap f) (l.flatMap f') := by
  induction l with
  | nil => exact Agree.refl []
  | cons a l ih =>
    rw [List.flatMap_cons, List.flatMap_cons]
    exact (h a List.mem_cons_self).append (ih fun b hb => h b (List.mem_cons_of_mem a hb))

end

/-- The section that events open last. -/
def opened : List (SectionEvent G K V) → Option G
  | [] => none
  | enter g :: es => some (sectionAfter g es)
  | set _ _ :: es => opened es

/-- The keys and values of events, whatever the sections. -/
def sets : List (SectionEvent G K V) → List (K × V)
  | [] => []
  | enter _ :: es => sets es
  | set k v :: es => (k, v) :: sets es

theorem sectionAfter_eq (g : G) (es : List (SectionEvent G K V)) :
    sectionAfter g es = (opened es).getD g := by
  induction es generalizing g with
  | nil => rfl
  | cons e es ih =>
    cases e with
    | enter g' => rfl
    | set k v => exact ih g

/-- Without a new section all settings are made in the section the reader is in. -/
theorem settings_of_opened {es : List (SectionEvent G K V)} (h : opened es = none) (g : G) :
    settings g es = (sets es).map fun a => ((g, a.1), a.2) := by
  induction es with
  | nil => rfl
  | cons e es ih =>
    cases e with
    | enter g' => cases h
    | set k v => rw [settings, ih h, sets, List.map_cons]

theorem settings_eq_nil {es : List (SectionEvent G K V)} {g : G} :
    settings g es = [] ↔ sets es = [] := by
  induction es generalizing g with
  | nil => exact iff_of_true rfl rfl
  | cons e es ih =>
    cases e with
    | enter g' => exact ih
    | set k v => simp [settings, sets]

section

variable [DecidableEq G] [DecidableEq K]

theorem lastValue_map (g g' : G) (l : List (K × V)) (k : K) :
    lastValue (l.map fun a => ((g, a.1), a.2)) (g', k) =
      if g = g' then lastValue l k else none := by
  induction l with
  | nil => simp [lastValue]
  | cons a l ih =>
    rw [List.map_cons, lastValue, ih, lastValue]
    by_cases hg : g = g'
    · simp [hg]
    · simp [hg]

/-- A setting behind events that end in different sections. -/
theorem settings_differ {es fs : List (SectionEvent G K V)} {g : G}
    (h : sectionAfter g es ≠ sectionAfter g fs) (k : K) {v v' : V} (hv : v ≠ v') :
    ∃ w, (w = v ∨ w = v') ∧ ∃ x, lastValue (settings g (es ++ [set k w])) x ≠
      lastValue (settings g (fs ++ [set k w])) x := by
  have hold (w : V) : lastValue (settings g (es ++ [set k w])) (sectionAfter g fs, k) =
      lastValue (settings g es) (sectionAfter g fs, k) := by
    simp [lastValue_append, settings, lastValue, h]
  have hnew (w : V) : lastValue (settings g (fs ++ [set k w])) (sectionAfter g fs, k) = some w := by
    simp [lastValue_append, settings, lastValue]
  by_cases hw : lastValue (settings g es) (sectionAfter g fs, k) = some v
  · refine ⟨v', .inr rfl, (sectionAfter g fs, k), ?_⟩
    rw [hold, hnew, hw]
    exact fun heq => hv (Option.some.inj heq)
  · refine ⟨v, .inl rfl, (sectionAfter g fs, k), ?_⟩
    rw [hold, hnew]
    exact hw

omit [DecidableEq G] [DecidableEq K] in
/-- One of two sections shows that events do not open the same section. -/
theorem exists_section {es fs : List (SectionEvent G K V)} (h : opened es ≠ opened fs) {g1 g2 : G}
    (hg : g1 ≠ g2) :
    ∃ g, (g = g1 ∨ g = g2) ∧ sectionAfter g es ≠ sectionAfter g fs := by
  by_contra hno
  simp only [not_exists, not_and, not_not, sectionAfter_eq] at hno
  have h1 := hno g1 (.inl rfl)
  have h2 := hno g2 (.inr rfl)
  cases hes : opened es with
  | none =>
    cases hfs : opened fs with
    | none => exact h (hes.trans hfs.symm)
    | some b =>
      rw [hes, hfs] at h1 h2
      exact hg (h1.trans h2.symm)
  | some a =>
    cases hfs : opened fs with
    | none =>
      rw [hes, hfs] at h1 h2
      exact hg (h1.symm.trans h2)
    | some b =>
      rw [hes, hfs] at h1 h
      exact h (congrArg some h1)

/-- Events that do not agree with others, which only set or only open a section, differ from them
in some document: alone, or behind one of two sections, or before one of two settings. -/
theorem exists_context {es fs : List (SectionEvent G K V)} (hfs : opened fs = none ∨ sets fs = [])
    (h : ¬ Agree es fs) (g : G) {g1 g2 : G} (hg : g1 ≠ g2) (k : K) {v1 v2 : V} (hv : v1 ≠ v2) :
    ∃ before after, (before = [] ∨ before = [enter g1] ∨ before = [enter g2]) ∧
      (after = [] ∨ after = [set k v1] ∨ after = [set k v2]) ∧
      ∃ x, lastValue (settings g (before ++ (es ++ after))) x ≠
        lastValue (settings g (before ++ (fs ++ after))) x := by
  by_cases hopen : opened es = opened fs
  · -- they differ in a setting, and so they do alone
    have hsec : ∀ g', sectionAfter g' es = sectionAfter g' fs := by
      intro g'
      rw [sectionAfter_eq, sectionAfter_eq, hopen]
    have hlast : ∃ g' x, lastValue (settings g' es) x ≠ lastValue (settings g' fs) x := by
      by_contra hno
      simp only [not_exists, not_not] at hno
      exact h fun g' => ⟨hsec g', hno g'⟩
    obtain ⟨g', x, hx⟩ := hlast
    refine ⟨[], [], .inl rfl, .inl rfl, ?_⟩
    simp only [List.nil_append, List.append_nil]
    rcases hfs with hnone | hsets
    · have hes : opened es = none := hopen.trans hnone
      obtain ⟨g'', k'⟩ := x
      rw [settings_of_opened hes, settings_of_opened hnone, lastValue_map, lastValue_map] at hx
      refine ⟨(g, k'), ?_⟩
      rw [settings_of_opened hes, settings_of_opened hnone, lastValue_map, lastValue_map,
        if_pos rfl, if_pos rfl]
      exact fun heq => hx (by rw [heq])
    · have hempty : ∀ g', settings g' fs = [] := fun _ => settings_eq_nil.mpr hsets
      have hne : settings g es ≠ [] := by
        intro hnil
        have hnil' : settings g' es = [] := settings_eq_nil.mpr (settings_eq_nil.mp hnil)
        rw [hnil', hempty] at hx
        exact hx rfl
      obtain ⟨x, hx⟩ := exists_lastValue hne
      refine ⟨x, ?_⟩
      rw [hempty]
      exact hx
  · -- they end in different sections, in which a setting shows
    obtain ⟨g', hg', hdiff⟩ := exists_section hopen hg
    obtain ⟨w, hw, x, hx⟩ := settings_differ hdiff k hv
    refine ⟨[enter g'], [set k w], ?_, ?_, x, hx⟩
    · rcases hg' with rfl | rfl
      · exact .inr (.inl rfl)
      · exact .inr (.inr rfl)
    · rcases hw with rfl | rfl
      · exact .inr (.inl rfl)
      · exact .inr (.inr rfl)

end

end SectionEvent

end OpxCommonUtils
