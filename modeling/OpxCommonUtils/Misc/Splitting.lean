import Mathlib.Data.List.Basic
import Mathlib.Data.List.Infix

/-!
# Cutting a list at every place where a pattern stands

`Splitting d s ts` says that a scan of `s` cuts it into `ts`: a piece ends where the scan first
meets `d`, and the next begins behind it. A piece that would be empty because nothing is left is
not made. Joined with `d` the pieces give `s` again, but for a `d` that stands at the end.
-/

namespace OpxCommonUtils

/-- What stands before the first `c` of a list, and what behind it. -/
theorem append_cons_cancel {α : Type} {c : α} {a b r s : List α} (ha : c ∉ a) (hb : c ∉ b)
    (h : a ++ c :: r = b ++ c :: s) : a = b ∧ r = s := by
  induction a generalizing b with
  | nil =>
    cases b with
    | nil => exact ⟨rfl, (List.cons.inj h).2⟩
    | cons x b => exact absurd ((List.cons.inj h).1 ▸ List.mem_cons_self) hb
  | cons x a ih =>
    cases b with
    | nil => exact absurd ((List.cons.inj h).1 ▸ List.mem_cons_self) ha
    | cons y b =>
      rw [List.mem_cons, not_or] at ha hb
      obtain ⟨rfl, htail⟩ := List.cons.inj h
      obtain ⟨rfl, rfl⟩ := ih ha.2 hb.2 htail
      exact ⟨rfl, rfl⟩

/-- The pieces into which a scan for `d` cuts a list. -/
inductive Splitting {α : Type} (d : List α) : List α → List (List α) → Prop
  | done : Splitting d [] []
  | last {s : List α} (hne : s ≠ []) (hd : ¬ d <:+: s) : Splitting d s [s]
  | piece {t s : List α} {ts : List (List α)} (hd : ¬ d <:+: t) (rest : Splitting d s ts) :
      Splitting d (t ++ (d ++ s)) (t :: ts)

namespace Splitting

variable {α : Type} {d s : List α} {ts : List (List α)}

theorem not_infix (h : Splitting d s ts) : ∀ t ∈ ts, ¬ d <:+: t := by
  induction h with
  | done => simp
  | last _ hd => simpa using hd
  | piece hd _ ih => exact List.forall_mem_cons.mpr ⟨hd, ih⟩

theorem eq_nil_iff (hd : d ≠ []) (h : Splitting d s ts) : ts = [] ↔ s = [] := by
  cases h with
  | done => simp
  | last hne _ => simpa using hne
  | piece _ _ => simp [hd]

theorem mem_of_mem {a : α} (h : Splitting d s ts) : ∀ t ∈ ts, a ∈ t → a ∈ s := by
  induction h with
  | done => simp
  | last => simp
  | piece _ _ ih =>
    intro t ht ha
    rcases List.mem_cons.mp ht with rfl | ht
    · exact List.mem_append_left _ ha
    · exact List.mem_append_right _ (List.mem_append_right _ (ih t ht ha))

/-- The first piece ends at the first delimiter. -/
theorem of_append {c : α} {a r : List α} (h : Splitting [c] (a ++ c :: r) ts) (ha : c ∉ a) :
    ∃ us, ts = a :: us ∧ Splitting [c] r us := by
  generalize heq : a ++ c :: r = s at h
  cases h with
  | done => simp at heq
  | last _ hd =>
    rw [List.singleton_infix_iff, ← heq] at hd
    simp at hd
  | @piece t s us hd rest =>
    rw [List.singleton_infix_iff] at hd
    obtain ⟨rfl, rfl⟩ := append_cons_cancel ha hd heq
    exact ⟨us, rfl, rest⟩

theorem of_not_mem {c : α} (h : Splitting [c] s ts) (hs : s ≠ []) (hc : c ∉ s) : ts = [s] := by
  cases h with
  | done => exact absurd rfl hs
  | last => rfl
  | piece _ _ => simp at hc

theorem intercalate (h : Splitting d s ts) :
    d.intercalate ts = s ∨ d.intercalate ts ++ d = s := by
  induction h with
  | done => exact .inl rfl
  | last => exact .inl (by simp [List.intercalate])
  | @piece t s ts _ rest ih =>
    cases ts with
    | nil =>
      -- the piece is the last, and `d` ends the list
      cases rest
      exact .inr (by simp [List.intercalate])
    | cons u us =>
      have hjoin : d.intercalate (t :: u :: us) = t ++ (d ++ d.intercalate (u :: us)) := by
        simp [List.intercalate]
      rw [hjoin]
      rcases ih with h | h
      · exact .inl (by rw [h])
      · exact .inr (by rw [← h]; simp)

end Splitting

end OpxCommonUtils
