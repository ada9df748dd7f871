import OpxCommonUtils.Misc.Steps

/-!
# Forward simulation

A system that takes steps is compared with a transition relation that says what it is for: when
every step can be followed by a transition of the relation, or leaves it where it is, so can every
run (`Trail.simulate`).
-/

namespace OpxCommonUtils

variable {S L A M : Type}

/-- The runs of a transition relation, with their labels. -/
inductive Trail (rel : A → M → A → Prop) (init : A) : List M → A → Prop
  | nil : Trail rel init [] init
  | snoc {ms : List M} {m : M} {a a' : A} : Trail rel init ms a → rel a m a' →
      Trail rel init (ms ++ [m]) a'

/-- What holds at the start and is kept by every transition holds at the end of every run. -/
theorem Trail.invariant {rel : A → M → A → Prop} {init : A} {P : A → Prop} (hinit : P init)
    (hstep : ∀ {a a' : A} {m : M}, P a → rel a m a' → P a') {ms : List M} {a : A}
    (h : Trail rel init ms a) : P a := by
  induction h with
  | nil => exact hinit
  | snoc _ hrel ih => exact hstep ih hrel

/-- One run after another. -/
theorem Trail.append {rel : A → M → A → Prop} {init a a' : A} {ms ms' : List M}
    (h : Trail rel init ms a) (h' : Trail rel a ms' a') : Trail rel init (ms ++ ms') a' := by
  induction h' with
  | nil => rwa [List.append_nil]
  | snoc _ hrel ih =>
    rw [← List.append_assoc]
    exact ih.snoc hrel

/-- A run that begins with a given transition. -/
theorem Trail.cons {rel : A → M → A → Prop} {init a a' : A} {m : M} {ms : List M}
    (hrel : rel init m a) (h : Trail rel a ms a') : Trail rel init (m :: ms) a' :=
  (Trail.nil.snoc hrel).append h

/-- Steps that meet a condition are the run of a relation. -/
theorem trail_of_allMeet {step : L → S → Option S} (cond : S → L → Prop)
    [∀ s l, Decidable (cond s l)] (ls : List L) : ∀ {s s' : S}, allMeet step cond ls s = true →
    runSteps step ls s = some s' →
    Trail (fun s l s' => cond s l ∧ step l s = some s') s ls s' := by
  induction ls with
  | nil =>
    intro s s' _ hrun
    cases hrun
    exact .nil
  | cons l ls ih =>
    intro s s' hmeet hrun
    obtain ⟨s₁, hstep, hrest⟩ := Option.bind_eq_some_iff.mp hrun
    rw [allMeet, hstep, Bool.and_eq_true] at hmeet
    exact .cons ⟨of_decide_eq_true hmeet.1, hstep⟩ (ih hmeet.2 hrest)

/-- A step is followed by one transition, or by none. -/
def Follows (rel : A → M → A → Prop) (a : A) : Option M → A → Prop
  | none, a' => a' = a
  | some m, a' => rel a m a'

/-- Steps that can be followed one by one can be followed all together. -/
theorem Trail.simulate {rel : S → L → S → Prop} {rel' : A → M → A → Prop} {f : L → Option M}
    {R : S → A → Prop} (hsim : ∀ {s s' : S} {a : A} {l : L}, R s a → rel s l s' →
      ∃ a', Follows rel' a (f l) a' ∧ R s' a') {init s : S} {a : A} {ls : List L} (hinit : R init a)
    (h : Trail rel init ls s) : ∃ a', Trail rel' a (ls.filterMap f) a' ∧ R s a' := by
  induction h with
  | nil => exact ⟨a, .nil, hinit⟩
  | @snoc ls l s s' _ hrel ih =>
    obtain ⟨a₁, hruns, hR⟩ := ih
    obtain ⟨a₂, hfollows, hR'⟩ := hsim hR hrel
    refine ⟨a₂, ?_, hR'⟩
    rw [List.filterMap_append]
    cases hf : f l with
    | none =>
      rw [hf] at hfollows
      obtain rfl : a₂ = a₁ := hfollows
      simpa [hf] using hruns
    | some m =>
      rw [hf] at hfollows
      simpa [hf] using hruns.snoc hfollows

end OpxCommonUtils
