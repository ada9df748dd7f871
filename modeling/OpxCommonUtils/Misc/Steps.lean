import Mathlib.Logic.Basic

/-!
# Systems that take steps

A system is a partial function from a label and a state to the next state. `Reached` are the states
of its runs in which every step meets a condition, and `runSteps` executes a list of labels.
-/

namespace OpxCommonUtils

variable {S L : Type}

/-- The states of the runs from `init` whose steps all meet `cond`. -/
inductive Reached (step : L → S → Option S) (cond : S → L → Prop) (init : S) : S → Prop
  | init : Reached step cond init init
  | step {s s' : S} {l : L} : Reached step cond init s → cond s l → step l s = some s' →
      Reached step cond init s'

/-- What holds at the start and is kept by every step that meets the condition holds in every state
of a run. -/
theorem Reached.invariant {step : L → S → Option S} {cond : S → L → Prop} {init : S}
    {P : S → Prop} (hinit : P init)
    (hstep : ∀ {s s' : S} {l : L}, P s → cond s l → step l s = some s' → P s') {s : S}
    (h : Reached step cond init s) : P s := by
  induction h with
  | init => exact hinit
  | step _ hcond hrun ih => exact hstep ih hcond hrun

/-- The steps of a list of labels. -/
def runSteps (step : L → S → Option S) : List L → S → Option S
  | [], s => some s
  | l :: ls, s => (step l s).bind (runSteps step ls)

/-- A list of labels that meet the condition in every state leads from a reached state to a reached
state. -/
theorem Reached.runSteps {step : L → S → Option S} {cond : S → L → Prop} {init : S} (ls : List L)
    (hcond : ∀ l ∈ ls, ∀ s, cond s l) : ∀ {s s' : S}, Reached step cond init s →
    OpxCommonUtils.runSteps step ls s = some s' → Reached step cond init s' := by
  induction ls with
  | nil =>
    intro s s' hs hrun
    exact Option.some.inj hrun ▸ hs
  | cons l ls ih =>
    intro s s' hs hrun
    obtain ⟨s₁, hstep, hrest⟩ := Option.bind_eq_some_iff.mp hrun
    exact ih (fun l' hl' => hcond l' (by simp [hl'])) (.step hs (hcond l (by simp) s) hstep) hrest

/-- Every step of a list of labels meets the condition. -/
def allMeet (step : L → S → Option S) (cond : S → L → Prop) [∀ s l, Decidable (cond s l)] :
    List L → S → Bool
  | [], _ => true
  | l :: ls, s => decide (cond s l) && (step l s).all (allMeet step cond ls)

/-- A list of labels whose steps meet the condition leads from a reached state to a reached state. -/
theorem Reached.runSteps_of_allMeet {step : L → S → Option S} (cond : S → L → Prop)
    [∀ s l, Decidable (cond s l)] {init : S} (ls : List L) : ∀ {s s' : S},
    Reached step cond init s → allMeet step cond ls s = true →
    OpxCommonUtils.runSteps step ls s = some s' → Reached step cond init s' := by
  induction ls with
  | nil =>
    intro s s' hs _ hrun
    exact Option.some.inj hrun ▸ hs
  | cons l ls ih =>
    intro s s' hs hmeet hrun
    obtain ⟨s₁, hstep, hrest⟩ := Option.bind_eq_some_iff.mp hrun
    rw [allMeet, hstep, Bool.and_eq_true] at hmeet
    exact ih (.step hs (of_decide_eq_true hmeet.1) hstep) hmeet.2 hrest

end OpxCommonUtils
