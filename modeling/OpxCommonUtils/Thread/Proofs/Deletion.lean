import OpxCommonUtils.Thread.Proofs.Jobs

/-!
# The deletion of a thread pool

`std_thread_pool_delete` waits for no worker: it sets the flag, signals, sleeps for a fixed time and
deletes the pool. What a worker does afterwards is clean exactly when all of them had returned by
then, and the jobs are settled exactly when none is left in the queue.
-/

namespace OpxCommonUtils.Thread.Pool

variable {n : Nat} {s s' : Pool n}

/-- No worker is about to lock, wait on or read the pool, and each job that was accepted before
`std_thread_pool_delete` was called has been run and released, or released without running. -/
def Clean (s : Pool n) : Prop :=
  (∀ w, (s.workers w).touches = false) ∧
    ∀ j ∈ s.called, s.calls j = j.calls ∨ s.calls j = [.free j]

/-- All workers have returned, and no job accepted before the call is in the queue. -/
def Quiet (s : Pool n) : Prop :=
  (∀ w, s.workers w = .done) ∧ ∀ j ∈ s.called, j ∉ s.jobs

instance (s : Pool n) : Decidable s.Quiet :=
  inferInstanceAs (Decidable ((∀ w, s.workers w = .done) ∧ ∀ j ∈ s.called, j ∉ s.jobs))

/-! ## What the caller of `std_thread_pool_delete` sees -/

theorem signal_frame {woken : Finset (Fin n)} (h : s.signal woken = some s') :
    s'.called = s.called ∧ s'.deleter = s.deleter := by
  obtain ⟨-, -, rfl⟩ := signal_spec h
  exact ⟨rfl, rfl⟩

theorem lock_frame {w : Fin n} {pc : Pc} (h : s.lock w pc = some s') :
    s'.called = s.called ∧ s'.deleter = s.deleter := by
  obtain ⟨-, rfl⟩ := lock_spec h
  exact ⟨rfl, rfl⟩

theorem workerStep_frame {w : Fin n} {woken : Finset (Fin n)}
    (h : s.workerStep w woken = some s') : s'.called = s.called ∧ s'.deleter = s.deleter := by
  have hsame : ∀ {s₁ : Pool n}, some s₁ = some s' →
      s₁.called = s.called ∧ s₁.deleter = s.deleter →
      s'.called = s.called ∧ s'.deleter = s.deleter := by
    intro s₁ heq hs₁
    exact Option.some.inj heq ▸ hs₁
  unfold workerStep at h
  split at h
  case h_1 | h_7 | h_10 => exact lock_frame h
  case h_2 => exact hsame h (by split_ifs <;> exact ⟨rfl, rfl⟩)
  case h_3 =>
    split_ifs at h
    · have hframe := signal_frame h
      exact hframe
    · exact hsame h ⟨rfl, rfl⟩
  case h_4 =>
    split at h
    · exact hsame h ⟨rfl, rfl⟩
    · dsimp only at h
      split_ifs at h
      · have hframe := signal_frame h
        exact hframe
      · exact hsame h ⟨rfl, rfl⟩
  case h_5 | h_9 | h_11 => exact hsame h ⟨rfl, rfl⟩
  case h_6 => split_ifs at h <;> exact hsame h ⟨rfl, rfl⟩
  case h_8 => exact hsame h (by split_ifs <;> exact ⟨rfl, rfl⟩)
  case h_12 | h_13 => cases h

/-- The call records the jobs accepted before it, and only `delete` makes the call return. -/
theorem step_frame {l : Label n} (h : step l s = some s') :
    (s'.called = s.called ∨ s'.called = s.accepted) ∧
      (s'.deleter = .returned → s.deleter = .returned ∨ l = .delete) := by
  have hkeep : s'.called = s.called ∧ s'.deleter = s.deleter →
      (s'.called = s.called ∨ s'.called = s.accepted) ∧
        (s'.deleter = .returned → s.deleter = .returned ∨ l = .delete) := by
    intro hframe
    exact ⟨.inl hframe.1, fun hret => .inl (hframe.2.symm.trans hret)⟩
  cases l with
  | jobAdd job stored woken =>
    simp only [step] at h
    split_ifs at h
    unfold addWork at h
    dsimp only at h
    split_ifs at h
    · have hframe := signal_frame h
      exact hkeep hframe
    · exact hkeep (Option.some.inj h ▸ ⟨rfl, rfl⟩)
  | worker w woken =>
    simp only [step] at h
    split_ifs at h
    exact hkeep (workerStep_frame h)
  | wake w =>
    simp only [step] at h
    split_ifs at h
    exact hkeep (Option.some.inj h ▸ ⟨rfl, rfl⟩)
  | shutdown =>
    simp only [step] at h
    split_ifs at h
    obtain rfl := Option.some.inj h
    exact ⟨.inr rfl, by simp⟩
  | signal woken =>
    simp only [step] at h
    split at h
    · split_ifs at h
      have hframe := signal_frame h
      exact ⟨.inl hframe.1, by simp [hframe.2]⟩
    · cases h
  | destroy =>
    simp only [step] at h
    split_ifs at h
    obtain rfl := Option.some.inj h
    exact ⟨.inl rfl, by simp⟩
  | delete =>
    simp only [step] at h
    split_ifs at h
    obtain rfl := Option.some.inj h
    exact ⟨.inl rfl, fun _ => .inr rfl⟩

theorem delete_spec (h : step .delete s = some s') :
    s.deleter = .destroyed ∧ s' = { s with deleter := .returned } := by
  simp only [step] at h
  split_ifs at h with hdel
  exact ⟨hdel, (Option.some.inj h).symm⟩

/-! ## Jobs and workers after the deletion -/

/-- The jobs accepted before the call are among those accepted. -/
structure Recorded (s : Pool n) : Prop where
  ledger : s.ledger.Inv
  called : s.called ⊆ s.accepted

theorem Recorded.step (h : s.Recorded) {l : Label n} (hrun : step l s = some s') :
    s'.Recorded := by
  have hstep := step_ledger hrun
  refine ⟨h.ledger.step hstep, ?_⟩
  have hgrow : s.accepted ⊆ s'.accepted := hstep.accepted_subset
  rcases (step_frame hrun).1 with heq | heq
  · rw [heq]
    exact List.Subset.trans h.called hgrow
  · rw [heq]
    exact hgrow

theorem Recorded.init : (Pool.init n).Recorded :=
  ⟨ledger_inv (.init : Reached Pool.step (fun _ _ => True) (Pool.init n) _), List.Subset.refl _⟩

theorem Recorded.of_reached {cond : Pool n → Label n → Prop} {s₀ : Pool n} (h₀ : s₀.Recorded)
    (h : Reached Pool.step cond s₀ s) : s.Recorded :=
  h.invariant (P := Recorded) h₀ fun hs _ hrun => hs.step hrun

/-- Once the pool is deleted and all workers have returned nothing happens any more. -/
theorem step_quiet (hret : s.deleter = .returned) (hdone : ∀ w, s.workers w = .done)
    (l : Label n) : step l s = none := by
  cases l with
  | worker w woken => simp [step, workerStep, hdone w, hret]
  | _ => simp [step, hret]

/-- Jobs that were taken, and that no worker has, have been called. -/
theorem Recorded.clean (h : s.Recorded) (hquiet : s.Quiet) : s.Clean := by
  constructor
  · intro w
    rw [hquiet.1 w]
    rfl
  · intro j hj
    have hmem : j ∈ s.taken ++ s.jobs := by
      rw [show s.taken ++ s.jobs = s.accepted from h.ledger.order]
      exact h.called hj
    have htaken : j ∈ s.taken := (List.mem_append.mp hmem).resolve_right (hquiet.2 j hj)
    left
    apply h.ledger.finished j htaken
    intro w ran
    simp [Pool.ledger, hquiet.1 w, Pc.held]

/-- A worker that has not returned reaches a place where it touches the pool. -/
theorem exists_touches (hret : s.deleter = .returned) {w : Fin n} (hw : s.workers w ≠ .done) :
    ∃ s', Reached step (fun _ _ => True) s s' ∧ (s'.workers w).touches = true := by
  have hrelease : ∀ {s : Pool n} {j : Job}, s.deleter = .returned → s.workers w = .release j →
      ∃ s', Reached step (fun _ _ => True) s s' ∧ (s'.workers w).touches = true := by
    intro s j hret hw
    by_cases hfree : j.job.freeJobFunc = NULL
    · refine ⟨s.goto w .relock, .step .init trivial (l := .worker w ∅) ?_, by simp [goto, Pc.touches]⟩
      simp [step, workerStep, hw, hfree, Pc.touches]
    · refine ⟨{ s with log := s.log ++ [Call.free j] }.goto w .relock,
        .step .init trivial (l := .worker w ∅) ?_, by simp [goto, Pc.touches]⟩
      simp [step, workerStep, hw, hfree, Pc.touches]
  cases hpc : s.workers w with
  | done => exact absurd hpc hw
  | release j => exact hrelease hret hpc
  | run j =>
    -- the job ends after the deletion
    have hstep : step (.worker w ∅) s =
        some ({ s with log := s.log ++ [Call.funct j] }.goto w (.release j)) := by
      simp [step, workerStep, hpc, Pc.touches]
    obtain ⟨s', hs', htouch⟩ := hrelease (j := j)
      (s := { s with log := s.log ++ [Call.funct j] }.goto w (.release j)) hret (by simp [goto])
    have hfirst : Reached step (fun _ _ => True) s
        ({ s with log := s.log ++ [Call.funct j] }.goto w (.release j)) :=
      .step .init trivial hstep
    refine ⟨s', ?_, htouch⟩
    exact hs'.invariant (P := Reached step (fun _ _ => True) s) hfirst
      fun hr _ hrun => .step hr trivial hrun
  | _ => exact ⟨s, .init, by rw [hpc]; rfl⟩

/-- A pool that is deleted after all workers have returned stays clean. -/
theorem Recorded.stays_clean (h : s.Recorded) (hret : s.deleter = .returned) (hquiet : s.Quiet)
    (hreached : Reached Pool.step (fun _ _ => True) s s') : s'.Clean := by
  have hsame : s' = s := by
    refine hreached.invariant (P := fun s' => s' = s) rfl ?_
    intro s₁ s₂ l hs₁ _ hrun
    rw [hs₁, step_quiet hret hquiet.1] at hrun
    cases hrun
  exact hsame ▸ h.clean hquiet

/-- A deletion is clean in every run that deletes a pool only when all workers have returned and no
earlier job is queued; a deletion at any other moment is not. -/
theorem delete_clean_iff (n : Nat) :
    (∀ s, Reached step (fun s l => l = .delete → s.Quiet) (init n) s →
      s.deleter = .returned → s.Clean) ∧
    ∀ s s', Reached step (fun _ _ => True) (init n) s → step .delete s = some s' →
      ((∀ s'', Reached step (fun _ _ => True) s' s'' → s''.Clean) ↔ s.Quiet) := by
  constructor
  · intro s h hret
    have hinv : s.Recorded ∧ (s.deleter = .returned → s.Quiet) := by
      refine h.invariant (P := fun s => s.Recorded ∧ (s.deleter = .returned → s.Quiet)) ?_ ?_
      · exact ⟨Recorded.init, by simp [init]⟩
      · intro s s' l hs hcond hrun
        refine ⟨hs.1.step hrun, fun hret' => ?_⟩
        rcases (step_frame hrun).2 hret' with hbefore | rfl
        · rw [step_quiet hbefore (hs.2 hbefore).1] at hrun
          cases hrun
        · obtain ⟨-, rfl⟩ := delete_spec hrun
          exact hcond rfl
    exact hinv.1.clean (hinv.2 hret)
  · intro s s' h hdelete
    have hrecorded : s.Recorded := Recorded.init.of_reached h
    have hrecorded' := hrecorded.step hdelete
    obtain ⟨-, rfl⟩ := delete_spec hdelete
    constructor
    · intro hclean
      have hnow := (hclean _ .init).2
      constructor
      · intro w
        by_contra hw
        have hret : ({ s with deleter := .returned } : Pool n).deleter = .returned := rfl
        obtain ⟨s'', hs'', htouch⟩ := exists_touches hret hw
        rw [(hclean s'' hs'').1 w] at htouch
        cases htouch
      · intro j hj hqueued
        -- a job in the queue has not been called at all
        have hfresh : s.calls j = [] :=
          hrecorded.ledger.fresh j (hrecorded.ledger.notMem_taken hqueued)
        rcases hnow j hj with hcalls | hcalls
        · exact absurd (hfresh.symm.trans hcalls) (by simp [Job.calls])
        · exact absurd (hfresh.symm.trans hcalls) (by simp)
    · intro hquiet s'' hs''
      exact hrecorded'.stays_clean rfl hquiet hs''

/-- A worker runs a job and goes back to wait, is woken by the deletion and returns in time. -/
def sampleDelete : List (Label 1) :=
  .jobAdd ⟨7, 1, 2⟩ true ∅ :: List.replicate 9 (.worker (Fin.last 0) ∅) ++
    [.shutdown, .signal {Fin.last 0}] ++ List.replicate 3 (.worker (Fin.last 0) ∅) ++
    [.destroy, .delete]

theorem delete_clean_iff_sample : ∃ s : Pool 1, s.deleter = .returned ∧
    s.log = [.funct ⟨0, 7, 1, 2⟩, .free ⟨0, 7, 1, 2⟩] ∧ s.Clean := by
  have hrun : (runSteps step sampleDelete (init 1)).map (fun s => (s.deleter, s.log)) =
      some (.returned, [.funct ⟨0, 7, 1, 2⟩, .free ⟨0, 7, 1, 2⟩]) := by decide
  obtain ⟨s, hs, heq⟩ := Option.map_eq_some_iff.mp hrun
  obtain ⟨hret, hlog⟩ := Prod.mk.inj heq
  have hreached := Reached.init.runSteps_of_allMeet
    (fun (s : Pool 1) (l : Label 1) => l = .delete → s.Quiet) sampleDelete (by decide) hs
  exact ⟨s, hret, hlog, (delete_clean_iff 1).1 s hreached hret⟩

/-- A job outlasts the sleep, and another is left in the queue. -/
def sampleLate : List (Label 1) :=
  [.jobAdd ⟨7, 1, 2⟩ true ∅, .jobAdd ⟨8, 1, 2⟩ true ∅] ++
    List.replicate 4 (.worker (Fin.last 0) ∅) ++ [.shutdown, .signal ∅, .destroy]

/-- After the deletion the worker comes back for the lock, and the second job is never released. -/
theorem delete_not_clean : ¬ ∀ (n : Nat) (s s' : Pool n),
    Reached step (fun _ _ => True) (init n) s → step .delete s = some s' →
      ∀ s'', Reached step (fun _ _ => True) s' s'' → s''.Clean := by
  intro hclaim
  have hrun : (runSteps step sampleLate (init 1)).map
      (fun s => (s.deleter, s.workers 0, s.called, s.jobs)) = some (.destroyed, .run ⟨0, 7, 1, 2⟩,
        [⟨0, 7, 1, 2⟩, ⟨1, 8, 1, 2⟩], [⟨1, 8, 1, 2⟩]) := by decide
  obtain ⟨s, hs, heq⟩ := Option.map_eq_some_iff.mp hrun
  simp only [Prod.mk.injEq] at heq
  have hreached : Reached step (fun _ _ => True) (init 1) s :=
    Reached.init.runSteps sampleLate (fun _ _ _ => trivial) hs
  have hdelete : step .delete s = some { s with deleter := .returned } := by simp [step, heq.1]
  obtain ⟨s'', hs'', htouch⟩ := exists_touches (s := { s with deleter := .returned }) (w := 0) rfl
    (by simp [heq.2.1])
  have hclean := (hclaim 1 s _ hreached hdelete s'' hs'').1 0
  rw [hclean] at htouch
  cases htouch

end OpxCommonUtils.Thread.Pool
