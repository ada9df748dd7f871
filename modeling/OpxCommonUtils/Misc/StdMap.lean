import Mathlib.Tactic.Common

/-!
# Maps that are iterated in the order of their keys

A `std::map` is an `ExtTreeMap`, which is determined by its lookups. Inserting its entries into the
empty map, one after the other, gives it back.
-/

namespace OpxCommonUtils

variable {K V : Type} [Ord K] [Std.TransOrd K] [Std.LawfulEqOrd K]

/-- A `std::map`. -/
abbrev StdMap (K V : Type) [Ord K] := Std.ExtTreeMap K V compare

namespace StdMap

theorem getElem?_foldl_insert {l : List (K × V)} (h : l.Pairwise fun a b => a.1 ≠ b.1) :
    ∀ (m : StdMap K V) (k : K) (v : V), (l.foldl (fun m x => m.insert x.1 x.2) m)[k]? = some v ↔
      (k, v) ∈ l ∨ (∀ w, (k, w) ∉ l) ∧ m[k]? = some v := by
  induction l with
  | nil => simp
  | cons x l ih =>
    intro m k v
    obtain ⟨hx, hl⟩ := List.pairwise_cons.mp h
    rw [List.foldl_cons, ih hl, Std.ExtTreeMap.getElem?_insert]
    by_cases hk : x.1 = k
    · have hout : ∀ w, (k, w) ∉ l := fun w hw => hx (k, w) hw hk
      rw [if_pos (by simpa using hk), List.mem_cons]
      constructor
      · rintro (hmem | ⟨-, hv⟩)
        · exact absurd hmem (hout v)
        · exact .inl (.inl (Prod.ext hk.symm (Option.some.inj hv).symm))
      · rintro ((heq | hmem) | ⟨hno, -⟩)
        · exact .inr ⟨hout, by rw [← heq]⟩
        · exact absurd hmem (hout v)
        · have hx' : (k, x.2) = x := Prod.ext hk.symm rfl
          exact absurd (List.mem_cons.mpr (.inl hx')) (hno x.2)
    · have hne : ∀ w, (k, w) ≠ x := fun w heq => hk (by rw [← heq])
      rw [if_neg (by simpa using hk)]
      simp only [List.mem_cons, hne, false_or]

/-- The entries of a map make it up. -/
theorem foldl_insert_toList (m : StdMap K V) :
    m.toList.foldl (fun m x => m.insert x.1 x.2) (∅ : StdMap K V) = m := by
  have hdistinct : m.toList.Pairwise fun a b => a.1 ≠ b.1 := by
    refine List.Pairwise.imp ?_ m.distinct_keys_toList
    intro a b hab heq
    exact hab (by simp [heq])
  apply Std.ExtTreeMap.ext_getElem?
  intro k
  apply Option.ext
  intro v
  rw [getElem?_foldl_insert hdistinct, Std.ExtTreeMap.mem_toList_iff_getElem?_eq_some]
  simp

/-- A change of a key that was inserted. -/
theorem alter_insert (m : StdMap K V) (k : K) (v : V) (f : Option V → Option V) {w : V}
    (hf : f (some v) = some w) : (m.insert k v).alter k f = m.insert k w := by
  apply Std.ExtTreeMap.ext_getElem?
  intro a
  rw [Std.ExtTreeMap.getElem?_alter, Std.ExtTreeMap.getElem?_insert_self, hf,
    Std.ExtTreeMap.getElem?_insert, Std.ExtTreeMap.getElem?_insert]
  split <;> rfl

theorem alter_of_none {m : StdMap K V} {k : K} (hk : m[k]? = none) (f : Option V → Option V)
    {w : V} (hf : f none = some w) : m.alter k f = m.insert k w := by
  apply Std.ExtTreeMap.ext_getElem?
  intro a
  rw [Std.ExtTreeMap.getElem?_alter, hk, hf, Std.ExtTreeMap.getElem?_insert]

end StdMap

end OpxCommonUtils
