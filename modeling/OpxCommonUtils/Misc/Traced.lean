import OpxCommonUtils.Misc.Heap

/-!
# Programs that leave a trace

A program that may go wrong, together with the events up to its end, whether that is a result or a
fault. `Traced.All P` says that every event satisfies `P`; it is proved along the program, and may
use what the parts before have delivered.
-/

namespace OpxCommonUtils

/-- What a program delivers, and the events on the way. -/
structure Traced (E α : Type) where
  events : List E
  result : Exec α

namespace Traced

variable {E α β : Type}

/-- A program without events. -/
def lift (x : Exec α) : Traced E α := ⟨[], x⟩

/-- Events only. -/
def emit (es : List E) : Traced E Unit := ⟨es, .ok ()⟩

instance : Monad (Traced E) where
  pure a := ⟨[], .ok a⟩
  bind x f :=
    match x.result with
    | .ok a => ⟨x.events ++ (f a).events, (f a).result⟩
    | .error e => ⟨x.events, .error e⟩

instance : MonadLift Exec (Traced E) := ⟨lift⟩

/-- A program after events that came before it. -/
def after (es : List E) (x : Traced E α) : Traced E α := ⟨es ++ x.events, x.result⟩

theorem after_after (es es' : List E) (x : Traced E α) :
    (x.after es').after es = x.after (es ++ es') := by
  simp [after]

theorem emit_bind (es : List E) (f : Unit → Traced E α) : emit es >>= f = (f ()).after es := rfl

theorem monadLift_ok_bind (a : α) (f : α → Traced E β) :
    (liftM (Except.ok a : Exec α) : Traced E α) >>= f = f a := rfl

theorem pure_after_bind (es : List E) (a : α) (f : α → Traced E β) :
    (pure a : Traced E α).after es >>= f = (f a).after es := by
  change (⟨es ++ [] ++ (f a).events, (f a).result⟩ : Traced E β) = _
  rw [List.append_nil]
  rfl

@[simp] theorem result_lift (x : Exec α) : (lift x : Traced E α).result = x := rfl

@[simp] theorem result_monadLift (x : Exec α) : (liftM x : Traced E α).result = x := rfl

@[simp] theorem result_emit (es : List E) : (emit es).result = .ok () := rfl

@[simp] theorem result_pure (a : α) : (pure a : Traced E α).result = .ok a := rfl

@[simp] theorem result_bind (x : Traced E α) (f : α → Traced E β) :
    (x >>= f).result = x.result >>= fun a => (f a).result := by
  change (match x.result with
    | .ok a => (⟨x.events ++ (f a).events, (f a).result⟩ : Traced E β)
    | .error e => ⟨x.events, .error e⟩).result = _
  cases x.result <;> rfl

@[simp] theorem result_ite {c : Prop} [Decidable c] (x y : Traced E α) :
    (if c then x else y).result = if c then x.result else y.result := by
  split <;> rfl

/-- Every event satisfies `P`. -/
def All (P : E → Prop) (x : Traced E α) : Prop := ∀ e ∈ x.events, P e

variable {P : E → Prop}

@[simp] theorem all_lift (x : Exec α) : All P (lift x) := by
  intro e he
  cases he

@[simp] theorem all_monadLift (x : Exec α) : All P (liftM x : Traced E α) := all_lift x

@[simp] theorem all_pure (a : α) : All P (pure a : Traced E α) := by
  intro e he
  cases he

@[simp] theorem all_emit {es : List E} : All P (emit es) ↔ ∀ e ∈ es, P e := Iff.rfl

theorem all_after {es : List E} {x : Traced E α} :
    All P (x.after es) ↔ (∀ e ∈ es, P e) ∧ All P x := List.forall_mem_append

/-- The events of a sequence are those of its parts, of the second one if it comes to that. -/
theorem all_bind {x : Traced E α} {f : α → Traced E β} :
    All P (x >>= f) ↔ All P x ∧ ∀ a, x.result = .ok a → All P (f a) := by
  have hevents : (x >>= f).events = x.events ++
      match x.result with
      | .ok a => (f a).events
      | .error _ => [] := by
    change (match x.result with
      | .ok a => (⟨x.events ++ (f a).events, (f a).result⟩ : Traced E β)
      | .error e => ⟨x.events, .error e⟩).events = _
    cases x.result <;> simp
  unfold All
  rw [hevents, List.forall_mem_append]
  refine and_congr_right fun _ => ?_
  cases hres : x.result with
  | ok a => simp
  | error e => simp

/-- The rule of sequencing. -/
theorem All.bind {x : Traced E α} {f : α → Traced E β} (hx : All P x)
    (hf : ∀ a, x.result = .ok a → All P (f a)) : All P (x >>= f) := all_bind.mpr ⟨hx, hf⟩

/-- Sequencing after a program without events. -/
theorem All.lift_bind {x : Exec α} {f : α → Traced E β} (hf : ∀ a, x = .ok a → All P (f a)) :
    All P ((liftM x : Traced E α) >>= f) := .bind (all_monadLift x) hf

/-- The program ends well with `a`, and every event on the way satisfies `P`. -/
structure Runs (P : E → Prop) (x : Traced E α) (a : α) : Prop where
  all : All P x
  result : x.result = .ok a

namespace Runs

variable {x : Traced E α} {a : α}

protected theorem pure (a : α) : Runs P (pure a) a := ⟨all_pure a, rfl⟩

protected theorem emit {es : List E} (h : ∀ e ∈ es, P e) : Runs P (emit es) () := ⟨h, rfl⟩

protected theorem bind {f : α → Traced E β} {b : β} (hx : Runs P x a) (hf : Runs P (f a) b) :
    Runs P (x >>= f) b := by
  refine ⟨hx.all.bind ?_, ?_⟩
  · intro a' ha'
    rw [hx.result] at ha'
    cases ha'
    exact hf.all
  · rw [result_bind, hx.result]
    exact hf.result

end Runs

end Traced

end OpxCommonUtils
