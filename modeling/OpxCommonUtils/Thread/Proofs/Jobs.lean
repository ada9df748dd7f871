import OpxCommonUtils.Thread.Pool
import Mathlib.Data.List.Nodup
import Mathlib.Data.List.Range

/-!
# The jobs of a thread pool

A `Ledger` is a pool without its lock and its condition: jobs are accepted, taken by workers and
called. Every step of the pool is one of the ledger (`Pool.step_ledger`), whatever else happens,
so what the ledger keeps holds in every run. That no job waits while all workers are blocked needs
the lock: a worker gives it up in the wait only after it has seen an empty queue.
-/

namespace OpxCommonUtils.Thread

/-! ## The ledger -/

/-- What happens to jobs: the queue, those taken from it and all that were accepted, the calls, and
what each worker has, with whether `funct` has returned. -/
structure Ledger (W : Type) where
  queue : List Job
  taken : List Job
  accepted : List Job
  log : List Call
  held : W → Option (Job × Bool)

namespace Ledger

variable {W : Type} [DecidableEq W]

/-- The calls made for a job. -/
def calls (a : Ledger W) (j : Job) : List Call := a.log.filter fun c => c.job = j

/-- The steps of a ledger. -/
inductive Step : Ledger W → Ledger W → Prop
  | stay (a : Ledger W) : Step a a
  | accept (a : Ledger W) (job : StdThreadPoolJob) : Step a { a with
      queue := a.queue ++ [⟨a.accepted.length, job⟩]
      accepted := a.accepted ++ [⟨a.accepted.length, job⟩] }
  | take (a : Ledger W) {w : W} {j : Job} {rest : List Job} : a.queue = j :: rest →
      a.held w = none → Step a { a with
        queue := rest
        taken := a.taken ++ [j]
        held := Function.update a.held w (some (j, false)) }
  | ran (a : Ledger W) {w : W} {j : Job} : a.held w = some (j, false) → Step a { a with
      log := a.log ++ [.funct j]
      held := Function.update a.held w (some (j, true)) }
  | released (a : Ledger W) {w : W} {j : Job} : a.held w = some (j, true) → Step a { a with
      log := a.log ++ if j.job.freeJobFunc = NULL then [] else [.free j]
      held := Function.update a.held w none }

theorem Step.accepted_subset {a a' : Ledger W} (h : Step a a') : a.accepted ⊆ a'.accepted := by
  cases h with
  | accept job => exact List.subset_append_left _ _
  | _ => exact List.Subset.refl _

/-- Each job that was accepted is in the queue, with a worker, or finished. -/
structure Inv (a : Ledger W) : Prop where
  order : a.taken ++ a.queue = a.accepted
  tickets : a.accepted.map Job.ticket = List.range a.accepted.length
  held : ∀ w j ran, a.held w = some (j, ran) →
    j ∈ a.taken ∧ a.calls j = if ran then [.funct j] else []
  unique : ∀ w w' j ran ran', a.held w = some (j, ran) → a.held w' = some (j, ran') → w' = w
  finished : ∀ j ∈ a.taken, (∀ w ran, a.held w ≠ some (j, ran)) → a.calls j = j.calls
  fresh : ∀ j ∉ a.taken, a.calls j = []

namespace Inv

variable {a a' : Ledger W}

omit [DecidableEq W] in
/-- No two jobs have the same ticket. -/
theorem nodup (h : a.Inv) : (a.taken ++ a.queue).Nodup := by
  have hticket : (a.accepted.map Job.ticket).Nodup := by
    rw [h.tickets]
    exact List.nodup_range
  rw [h.order]
  exact hticket.of_map

omit [DecidableEq W] in
theorem notMem_taken (h : a.Inv) {j : Job} (hj : j ∈ a.queue) : j ∉ a.taken := fun hmem =>
  List.disjoint_of_nodup_append h.nodup hmem hj

omit [DecidableEq W] in
theorem accept (h : a.Inv) (job : StdThreadPoolJob) : Inv { a with
    queue := a.queue ++ [⟨a.accepted.length, job⟩]
    accepted := a.accepted ++ [⟨a.accepted.length, job⟩] } where
  order := by rw [← List.append_assoc, h.order]
  tickets := by
    rw [List.map_append, h.tickets, List.length_append, List.length_singleton, List.range_succ]
    rfl
  held := h.held
  unique := h.unique
  finished := h.finished
  fresh := h.fresh

theorem take (h : a.Inv) {w : W} {j : Job} {rest : List Job} (hq : a.queue = j :: rest)
    (hw : a.held w = none) : Inv { a with
      queue := rest
      taken := a.taken ++ [j]
      held := Function.update a.held w (some (j, false)) } where
  order := by rw [← h.order, hq, List.append_assoc, List.singleton_append]
  tickets := h.tickets
  held := by
    intro w' j' ran hheld
    simp only [Function.update_apply] at hheld
    split_ifs at hheld with hww
    · obtain ⟨rfl, rfl⟩ := Prod.mk.inj (Option.some.inj hheld)
      exact ⟨by simp, h.fresh j (h.notMem_taken (hq ▸ List.mem_cons_self ..))⟩
    · have hold := h.held w' j' ran hheld
      exact ⟨List.mem_append_left _ hold.1, hold.2⟩
  unique := by
    -- nobody had the job, which was in the queue
    have hnew : ∀ w' ran, a.held w' ≠ some (j, ran) := fun w' ran hheld =>
      h.notMem_taken (hq ▸ List.mem_cons_self ..) (h.held w' j ran hheld).1
    intro w₁ w₂ j' ran₁ ran₂ h₁ h₂
    simp only [Function.update_apply] at h₁ h₂
    split_ifs at h₁ h₂ with hw₁ hw₂ hw₂
    · exact hw₂.trans hw₁.symm
    · obtain ⟨rfl, -⟩ := Prod.mk.inj (Option.some.inj h₁)
      exact absurd h₂ (hnew w₂ ran₂)
    · obtain ⟨rfl, -⟩ := Prod.mk.inj (Option.some.inj h₂)
      exact absurd h₁ (hnew w₁ ran₁)
    · exact h.unique w₁ w₂ j' ran₁ ran₂ h₁ h₂
  finished := by
    intro j' hj' hno
    have hne : j' ≠ j := by
      rintro rfl
      exact hno w false (Function.update_self ..)
    apply h.finished j'
    · simpa [hne] using hj'
    · intro w' ran hheld
      have hww : w' ≠ w := by
        rintro rfl
        simp [hw] at hheld
      exact hno w' ran ((Function.update_of_ne hww _ _).trans hheld)
  fresh := by
    intro j' hj'
    exact h.fresh j' fun hmem => hj' (List.mem_append_left _ hmem)

/-- A worker makes the next calls for the job it has. -/
theorem call (h : a.Inv) {w : W} {j : Job} {ran : Bool} (hw : a.held w = some (j, ran))
    {cs : List Call} (hcs : ∀ c ∈ cs, c.job = j) {next : Option (Job × Bool)}
    (hnext : next = some (j, true) ∧ ran = false ∧ cs = [.funct j] ∨ next = none ∧ ran = true ∧
      cs = if j.job.freeJobFunc = NULL then [] else [.free j]) :
    Inv { a with log := a.log ++ cs, held := Function.update a.held w next } := by
  have hsame : ∀ j', j' ≠ j → ((a.log ++ cs).filter fun c => c.job = j') = a.calls j' := by
    intro j' hj'
    have hnil : (cs.filter fun c => c.job = j') = [] := by
      rw [List.filter_eq_nil_iff]
      intro c hc
      simpa [hcs c hc] using Ne.symm hj'
    rw [List.filter_append, hnil, List.append_nil]
    rfl
  have hcalls : ((a.log ++ cs).filter fun c => c.job = j) = a.calls j ++ cs := by
    have hself : (cs.filter fun c => c.job = j) = cs := by
      rw [List.filter_eq_self]
      intro c hc
      simpa using hcs c hc
    rw [List.filter_append, hself]
    rfl
  obtain ⟨htaken, hdone⟩ := h.held w j ran hw
  refine ⟨h.order, h.tickets, ?_, ?_, ?_, ?_⟩
  · intro w' j' ran' hheld
    simp only [Function.update_apply] at hheld
    split_ifs at hheld with hww
    · rcases hnext with ⟨rfl, rfl, rfl⟩ | ⟨rfl, -, -⟩
      · obtain ⟨rfl, rfl⟩ := Prod.mk.inj (Option.some.inj hheld)
        exact ⟨htaken, hcalls.trans (by rw [hdone]; rfl)⟩
      · simp at hheld
    · have hne : j' ≠ j := by
        rintro rfl
        exact hww (h.unique w w' j' ran ran' hw hheld)
      exact ⟨(h.held w' j' ran' hheld).1, (hsame j' hne).trans (h.held w' j' ran' hheld).2⟩
  · have hold : ∀ w' j' ran', Function.update a.held w next w' = some (j', ran') →
        ∃ ran₀, a.held w' = some (j', ran₀) := by
      intro w' j' ran' hheld
      simp only [Function.update_apply] at hheld
      split_ifs at hheld with hww
      · rcases hnext with ⟨rfl, -, -⟩ | ⟨rfl, -, -⟩
        · obtain ⟨rfl, -⟩ := Prod.mk.inj (Option.some.inj hheld)
          exact ⟨ran, hww ▸ hw⟩
        · simp at hheld
      · exact ⟨ran', hheld⟩
    intro w₁ w₂ j' ran₁ ran₂ h₁ h₂
    obtain ⟨r₁, h₁⟩ := hold w₁ j' ran₁ h₁
    obtain ⟨r₂, h₂⟩ := hold w₂ j' ran₂ h₂
    exact h.unique w₁ w₂ j' r₁ r₂ h₁ h₂
  · intro j' hj' hno
    by_cases hjj : j' = j
    · subst hjj
      rcases hnext with ⟨rfl, -, -⟩ | ⟨-, rfl, rfl⟩
      · exact absurd (Function.update_self ..) (hno w true)
      · exact hcalls.trans (by rw [hdone]; rfl)
    · refine (hsame j' hjj).trans (h.finished j' hj' fun w' ran' hheld => ?_)
      have hww : w' ≠ w := by
        rintro rfl
        rw [hw] at hheld
        exact hjj (Prod.mk.inj (Option.some.inj hheld)).1.symm
      exact hno w' ran' ((Function.update_of_ne hww _ _).trans hheld)
  · intro j' hj'
    have hne : j' ≠ j := fun heq => hj' (heq ▸ htaken)
    exact (hsame j' hne).trans (h.fresh j' hj')

theorem step (h : a.Inv) (hstep : Step a a') : a'.Inv := by
  cases hstep with
  | stay => exact h
  | accept job => exact h.accept job
  | take hq hw => exact h.take hq hw
  | ran hw => exact h.call hw (by simp [Call.job]) (.inl ⟨rfl, rfl, rfl⟩)
  | released hw =>
    refine h.call hw (fun c hc => ?_) (.inr ⟨rfl, rfl, rfl⟩)
    split_ifs at hc with hnull
    · simp at hc
    · rw [List.mem_singleton.mp hc]
      rfl

end Inv

end Ledger

/-! ## The pool -/

namespace Pool

variable {n : Nat} {s s' : Pool n} {w : Fin n} {pc : Pc} {woken : Finset (Fin n)}

/-- The ledger of a pool. -/
def ledger (s : Pool n) : Ledger (Fin n) :=
  ⟨s.jobs, s.taken, s.accepted, s.log, fun w => (s.workers w).held⟩

theorem goto_ledger (s : Pool n) (w : Fin n) (pc : Pc) :
    (s.goto w pc).ledger =
      { s.ledger with held := Function.update s.ledger.held w pc.held } := by
  have hheld : (fun w' => ((s.goto w pc).workers w').held) =
      Function.update s.ledger.held w pc.held := by
    funext w'
    simp only [goto, Function.update_apply]
    split_ifs <;> rfl
  rw [ledger, hheld]
  rfl

/-- A worker that has a job neither before nor after a step. -/
theorem ledger_goto (hw : (s.workers w).held = none) (hpc : pc.held = none) :
    (s.goto w pc).ledger = s.ledger := by
  have hheld : Function.update s.ledger.held w pc.held = s.ledger.held := by
    rw [hpc]
    exact Function.update_eq_self_iff.mpr hw.symm
  rw [goto_ledger, hheld]

theorem ledger_unlock (hw : (s.workers w).held = none) (hpc : pc.held = none) :
    (s.unlock w pc).ledger = s.ledger :=
  (ledger_goto (s := { s with owner := none }) hw hpc)

theorem signal_spec (h : s.signal woken = some s') :
    woken ⊆ s.blocked ∧ (woken = ∅ → s.blocked = ∅) ∧
      s' = { s with workers := fun w => if w ∈ woken then .woken else s.workers w } := by
  unfold signal at h
  split_ifs at h with hcond
  exact ⟨hcond.1, hcond.2, (Option.some.inj h).symm⟩

theorem lock_spec (h : s.lock w pc = some s') :
    s.owner = none ∧ s' = { s with owner := some w }.goto w pc := by
  unfold lock at h
  split_ifs at h with hfree
  exact ⟨hfree, (Option.some.inj h).symm⟩

theorem ledger_signal (h : s.signal woken = some s') : s'.ledger = s.ledger := by
  obtain ⟨hsub, -, rfl⟩ := signal_spec h
  have hheld : (fun w => (if w ∈ woken then Pc.woken else s.workers w).held) =
      fun w => (s.workers w).held := by
    funext w
    split_ifs with hw
    · have hblocked := (Finset.mem_filter.mp (hsub hw)).2
      rw [hblocked]
      rfl
    · rfl
  simp only [ledger, hheld]

theorem ledger_lock (hw : (s.workers w).held = none) (hpc : pc.held = none)
    (h : s.lock w pc = some s') : s'.ledger = s.ledger := by
  obtain ⟨-, rfl⟩ := lock_spec h
  exact ledger_goto (s := { s with owner := some w }) hw hpc

/-- A step of a worker is a step of the ledger. -/
theorem workerStep_ledger (h : s.workerStep w woken = some s') :
    Ledger.Step s.ledger s'.ledger := by
  have hstay : s'.ledger = s.ledger → Ledger.Step s.ledger s'.ledger := fun heq =>
    heq ▸ Ledger.Step.stay _
  unfold workerStep at h
  split at h
  case h_1 hw | h_7 hw | h_10 hw => exact hstay (ledger_lock (by rw [hw]; rfl) rfl h)
  case h_2 hw =>
    obtain rfl := Option.some.inj h
    apply hstay
    split_ifs <;> exact ledger_goto (by rw [hw]; rfl) rfl
  case h_3 hw =>
    apply hstay
    split_ifs at h with hdown
    · exact (ledger_signal h).trans (ledger_goto (by rw [hw]; rfl) rfl)
    · obtain rfl := Option.some.inj h
      exact ledger_goto (by rw [hw]; rfl) rfl
  case h_4 hw =>
    split at h
    · obtain rfl := Option.some.inj h
      exact hstay (ledger_goto (by rw [hw]; rfl) rfl)
    · rename_i j rest hjobs
      have htake : ({ s with jobs := rest, taken := s.taken ++ [j] }.unlock w (.run j)).ledger =
          { s.ledger with
            queue := rest
            taken := s.taken ++ [j]
            held := Function.update s.ledger.held w (some (j, false)) } := by
        rw [unlock, goto_ledger]
        rfl
      have hstep := Ledger.Step.take s.ledger (w := w) hjobs (by simp [ledger, hw, Pc.held])
      dsimp only at h
      split_ifs at h with hmore
      · rw [ledger_signal h, htake]
        exact hstep
      · obtain rfl := Option.some.inj h
        rw [htake]
        exact hstep
  case h_5 j hw =>
    obtain rfl := Option.some.inj h
    rw [goto_ledger]
    exact Ledger.Step.ran s.ledger (by simp [ledger, hw, Pc.held])
  case h_6 j hw =>
    have hstep := Ledger.Step.released s.ledger (w := w) (j := j) (by simp [ledger, hw, Pc.held])
    split_ifs at h with hfree
    · obtain rfl := Option.some.inj h
      rw [if_neg hfree] at hstep
      rw [goto_ledger]
      exact hstep
    · obtain rfl := Option.some.inj h
      rw [if_pos (not_not.mp hfree), List.append_nil] at hstep
      rw [goto_ledger]
      exact hstep
  case h_8 hw =>
    obtain rfl := Option.some.inj h
    apply hstay
    split_ifs <;> exact ledger_goto (by rw [hw]; rfl) rfl
  case h_9 hw | h_11 hw =>
    obtain rfl := Option.some.inj h
    exact hstay (ledger_unlock (by rw [hw]; rfl) rfl)
  case h_12 | h_13 => cases h

/-- Every step of the pool is a step of the ledger. -/
theorem step_ledger {l : Label n} (h : step l s = some s') :
    Ledger.Step s.ledger s'.ledger := by
  have hstay : s'.ledger = s.ledger → Ledger.Step s.ledger s'.ledger := fun heq =>
    heq ▸ Ledger.Step.stay _
  cases l with
  | jobAdd job stored woken =>
    simp only [step] at h
    split_ifs at h
    unfold addWork at h
    dsimp only at h
    split_ifs at h with hstored
    · rw [ledger_signal h]
      exact Ledger.Step.accept s.ledger job
    · exact hstay (Option.some.inj h ▸ rfl)
  | worker w woken =>
    simp only [step] at h
    split_ifs at h
    exact workerStep_ledger h
  | wake w =>
    simp only [step] at h
    split_ifs at h with hcond
    obtain rfl := Option.some.inj h
    exact hstay (ledger_goto (by rw [hcond.2]; rfl) rfl)
  | signal woken =>
    simp only [step] at h
    split at h
    · split_ifs at h
      exact hstay ((ledger_signal h).trans rfl)
    · cases h
  | shutdown | destroy | delete =>
    simp only [step] at h
    split_ifs at h
    exact hstay (Option.some.inj h ▸ rfl)

/-- In every run of the pool its ledger accounts for all jobs. -/
theorem ledger_inv {cond : Pool n → Label n → Prop} (h : Reached step cond (init n) s) :
    s.ledger.Inv := by
  refine h.invariant (P := fun s => s.ledger.Inv) ?_ fun hs _ hstep => hs.step (step_ledger hstep)
  exact ⟨rfl, rfl, by simp [ledger, init, Pc.held], by simp [ledger, init, Pc.held],
    by simp [ledger, init], fun _ _ => rfl⟩

/-! ## The lock and the wait -/

/-- Only one worker has the lock, and as long as the pool is not shut down a worker at the wait has
seen an empty queue and a queue that is not empty has a worker that is not blocked. -/
structure Awake (s : Pool n) : Prop where
  up : s.shutdown = false
  idle : s.deleter = .idle
  owner : ∀ w, (s.workers w).locked = true → s.owner = some w
  wait : ∀ w, s.workers w = .wait → s.jobs = []
  awake : s.jobs ≠ [] → ∃ w, s.workers w ≠ .blocked

/-- After a signal some worker is not blocked. -/
theorem signal_awake (hn : 0 < n) (h : s.signal woken = some s') :
    ∃ w, s'.workers w ≠ .blocked := by
  obtain ⟨-, hsome, rfl⟩ := signal_spec h
  by_cases hnone : woken = ∅
  · have hw : (⟨0, hn⟩ : Fin n) ∉ s.blocked := by
      rw [hsome hnone]
      exact Finset.notMem_empty _
    refine ⟨⟨0, hn⟩, ?_⟩
    simpa [hnone, blocked] using hw
  · obtain ⟨w, hw⟩ := Finset.nonempty_iff_ne_empty.mpr hnone
    exact ⟨w, by simp [hw]⟩

namespace Awake

/-- A step of one worker that does not signal. -/
theorem move (h : s.Awake) (w : Fin n) (pc : Pc) (hup : s'.shutdown = s.shutdown)
    (hidle : s'.deleter = s.deleter)
    (hworkers : ∀ w', s'.workers w' = if w' = w then pc else s.workers w')
    (hlock : pc.locked = true → s'.owner = some w)
    (hkeep : s'.owner = s.owner ∨ s.owner = none ∨ (s.workers w).locked = true)
    (hjobs : s.jobs = [] → s'.jobs = []) (hwait : pc = .wait ∨ pc = .blocked → s'.jobs = []) :
    s'.Awake where
  up := hup.trans h.up
  idle := hidle.trans h.idle
  owner := by
    intro w' hw'
    rw [hworkers] at hw'
    split_ifs at hw' with hww
    · exact hww ▸ hlock hw'
    · have hown := h.owner w' hw'
      rcases hkeep with hsame | hfree | hmine
      · exact hsame.trans hown
      · rw [hfree] at hown
        cases hown
      · rw [h.owner w hmine] at hown
        exact absurd (Option.some.inj hown).symm hww
  wait := by
    intro w' hw'
    rw [hworkers] at hw'
    split_ifs at hw' with hww
    · exact hwait (.inl hw')
    · exact hjobs (h.wait w' hw')
  awake := by
    intro hne
    refine ⟨w, fun hblocked => hne (hwait (.inr ?_))⟩
    rwa [hworkers, if_pos rfl] at hblocked

/-- A signal, after which some worker is not blocked. -/
theorem signal (hn : 0 < n) (hup : s.shutdown = false) (hidle : s.deleter = .idle)
    (howner : ∀ w, (s.workers w).locked = true → s.owner = some w)
    (hwait : ∀ w, s.workers w = .wait → s.jobs = []) (h : s.signal woken = some s') :
    s'.Awake := by
  have hawake := signal_awake hn h
  obtain ⟨-, -, rfl⟩ := signal_spec h
  refine ⟨hup, hidle, ?_, ?_, fun _ => hawake⟩
  · intro w hw
    dsimp only at hw
    split_ifs at hw
    · cases hw
    · exact howner w hw
  · intro w hw
    dsimp only at hw
    split_ifs at hw
    exact hwait w hw

theorem lock (h : s.Awake) (hpc : pc.locked = true ∧ pc ≠ .wait)
    (hrun : s.lock w pc = some s') : s'.Awake := by
  obtain ⟨hfree, rfl⟩ := lock_spec hrun
  refine h.move w pc rfl rfl (fun _ => rfl) (fun _ => rfl) (.inr (.inl hfree)) id ?_
  rintro (rfl | rfl)
  · exact absurd rfl hpc.2
  · exact absurd hpc.1 (by simp [Pc.locked])

/-- The worker that has the lock goes on, and keeps it. -/
theorem goto (h : s.Awake) (hw : (s.workers w).locked = true)
    (hpc : pc = .wait ∨ pc = .blocked → s.jobs = []) : (s.goto w pc).Awake :=
  h.move w pc rfl rfl (fun _ => rfl) (fun _ => h.owner w hw) (.inl rfl) id hpc

theorem unlock (h : s.Awake) (hw : (s.workers w).locked = true) (hpc : pc.locked = false)
    (hwait : pc = .blocked → s.jobs = []) : (s.unlock w pc).Awake := by
  refine h.move w pc rfl rfl (fun _ => rfl) (fun hlocked => ?_) (.inr (.inr hw)) id ?_
  · rw [hpc] at hlocked
    cases hlocked
  · rintro (rfl | hblocked)
    · cases hpc
    · exact hwait hblocked

theorem workerStep (h : s.Awake) (hn : 0 < n) (hrun : s.workerStep w woken = some s') :
    s'.Awake := by
  unfold Pool.workerStep at hrun
  split at hrun
  case h_1 | h_7 | h_10 => exact h.lock (by simp [Pc.locked]) hrun
  case h_2 hw =>
    obtain rfl := Option.some.inj hrun
    rw [h.up]
    exact h.goto (by rw [hw]; rfl) (by simp)
  case h_3 hw =>
    simp only [h.up, Bool.false_eq_true, if_false] at hrun
    obtain rfl := Option.some.inj hrun
    exact h.goto (by rw [hw]; rfl) (by simp)
  case h_4 hw =>
    split at hrun
    · obtain rfl := Option.some.inj hrun
      exact h.goto (by rw [hw]; rfl) (by simp)
    · rename_i j rest hjobs
      have htaken : ({ s with jobs := rest, taken := s.taken ++ [j] }.unlock w (.run j)).Awake := by
        have hnil : s.jobs = [] → rest = [] := by
          intro hnil
          rw [hnil] at hjobs
          cases hjobs
        exact h.move w (.run j) rfl rfl (fun _ => rfl) (by simp [Pc.locked])
          (.inr (.inr (by rw [hw]; rfl))) hnil (by simp)
      dsimp only at hrun
      split_ifs at hrun
      · exact signal hn htaken.up htaken.idle htaken.owner htaken.wait hrun
      · exact Option.some.inj hrun ▸ htaken
  case h_5 j hw =>
    obtain rfl := Option.some.inj hrun
    exact h.move w (.release j) rfl rfl (fun _ => rfl) (by simp [Pc.locked]) (.inl rfl)
      id (by simp)
  case h_6 hw =>
    split_ifs at hrun <;> obtain rfl := Option.some.inj hrun <;>
      exact h.move w .relock rfl rfl (fun _ => rfl) (by simp [Pc.locked]) (.inl rfl)
        id (by simp)
  case h_8 hw =>
    obtain rfl := Option.some.inj hrun
    split_ifs with hmore
    · exact h.goto (by rw [hw]; rfl) (by simp)
    · exact h.goto (by rw [hw]; rfl) fun _ => by simpa using hmore
  case h_9 hw =>
    obtain rfl := Option.some.inj hrun
    exact h.unlock (by rw [hw]; rfl) rfl fun _ => h.wait w hw
  case h_11 hw =>
    obtain rfl := Option.some.inj hrun
    exact h.unlock (by rw [hw]; rfl) rfl (by simp)
  case h_12 | h_13 => cases hrun

theorem step (h : s.Awake) (hn : 0 < n) {l : Label n} (hl : l ≠ .shutdown)
    (hrun : Pool.step l s = some s') : s'.Awake := by
  cases l with
  | jobAdd job stored woken =>
    simp only [Pool.step] at hrun
    split_ifs at hrun with hcond
    unfold addWork at hrun
    dsimp only at hrun
    split_ifs at hrun with hstored
    · -- nobody has the lock, so no worker is at the wait
      have hfree : s.owner = none := by
        by_contra hne
        exact hcond (.inr hne)
      refine signal hn ?_ ?_ ?_ ?_ hrun
      · exact h.up
      · exact h.idle
      · exact h.owner
      · intro w hw
        have hown := h.owner w (by rw [show s.workers w = .wait from hw]; rfl)
        rw [hfree] at hown
        cases hown
    · exact Option.some.inj hrun ▸ h
  | worker w woken =>
    simp only [Pool.step] at hrun
    split_ifs at hrun
    exact h.workerStep hn hrun
  | wake w =>
    simp only [Pool.step] at hrun
    split_ifs at hrun
    obtain rfl := Option.some.inj hrun
    exact h.move w .woken rfl rfl (fun _ => rfl) (by simp [Pc.locked]) (.inl rfl) id
      (by simp)
  | signal woken => simp [Pool.step, h.idle] at hrun
  | shutdown => exact absurd rfl hl
  | destroy => simp [Pool.step, h.idle] at hrun
  | delete => simp [Pool.step, h.idle] at hrun

end Awake

/-! ## What a run does with jobs -/

/-- The worker has the job. -/
def Holds (s : Pool n) (w : Fin n) (j : Job) : Prop := ∃ ran, (s.workers w).held = some (j, ran)

/-- The job is in the queue, and nothing was done for it. -/
def Queued (s : Pool n) (j : Job) : Prop :=
  s.jobs.count j = 1 ∧ (∀ w, ¬ s.Holds w j) ∧ s.calls j = []

/-- One worker has the job, which is in the queue no more. -/
def Held (s : Pool n) (j : Job) : Prop :=
  j ∉ s.jobs ∧ (∃ w, s.Holds w j ∧ ∀ w', s.Holds w' j → w' = w) ∧
    (s.calls j = [] ∨ s.calls j = [.funct j])

/-- The calls of the job were made once and in order, and nobody has it any more. -/
def Finished (s : Pool n) (j : Job) : Prop :=
  j ∉ s.jobs ∧ (∀ w, ¬ s.Holds w j) ∧ s.calls j = j.calls

/-- Every job that was accepted is accounted for. -/
theorem accounted (h : s.ledger.Inv) {j : Job} (hj : j ∈ s.accepted) :
    s.Queued j ∨ s.Held j ∨ s.Finished j := by
  have hnodup := List.nodup_append.mp h.nodup
  have hmem : j ∈ s.taken ++ s.jobs := by
    rw [show s.taken ++ s.jobs = s.accepted from h.order]
    exact hj
  rcases List.mem_append.mp hmem with htaken | hqueue
  · have hout : j ∉ s.jobs := fun hq => h.notMem_taken hq htaken
    by_cases hheld : ∃ w, s.Holds w j
    · obtain ⟨w, ran, hw⟩ := hheld
      refine .inr (.inl ⟨hout, ⟨w, ⟨ran, hw⟩, ?_⟩, ?_⟩)
      · intro w' hw'
        obtain ⟨ran', hw'⟩ := hw'
        exact h.unique w w' j ran ran' hw hw'
      · have hcalls := (h.held w j ran hw).2
        cases ran with
        | false => exact .inl hcalls
        | true => exact .inr hcalls
    · have hno : ∀ w, ¬ s.Holds w j := not_exists.mp hheld
      exact .inr (.inr ⟨hout, hno, h.finished j htaken fun w ran hw => hno w ⟨ran, hw⟩⟩)
  · have hout := h.notMem_taken hqueue
    refine .inl ⟨List.count_eq_one_of_mem hnodup.2.1 hqueue, ?_, h.fresh j hout⟩
    intro w hw
    obtain ⟨ran, hw⟩ := hw
    exact hout (h.held w j ran hw).1

/-- In every run without deletion the jobs are taken in the order they were accepted, each is called
once, and while jobs are queued some worker is not blocked. -/
theorem jobs_once (hn : 0 < n) (h : Reached step (fun _ l => l ≠ .shutdown) (init n) s) :
    s.accepted.map Job.ticket = List.range s.accepted.length ∧
    s.taken ++ s.jobs = s.accepted ∧
    (∀ j ∈ s.accepted, s.Queued j ∨ s.Held j ∨ s.Finished j) ∧
    (s.jobs ≠ [] → ∃ w, s.workers w ≠ .blocked) := by
  have hledger := ledger_inv h
  have hawake : s.Awake := by
    refine h.invariant (P := Awake) ?_ fun hs hl hstep => hs.step hn hl hstep
    exact ⟨rfl, rfl, by simp [init, Pc.locked], by simp [init], by simp [init]⟩
  exact ⟨hledger.tickets, hledger.order, fun j hj => accounted hledger hj, hawake.awake⟩

/-- One worker waits, is woken by the first of two jobs and takes it. -/
def sampleJobs : List (Label 1) :=
  List.replicate 6 (.worker 0 ∅) ++
    [.jobAdd ⟨7, 1, 2⟩ true {0}, .jobAdd ⟨8, 1, NULL⟩ true ∅] ++ List.replicate 4 (.worker 0 ∅)

theorem jobs_once_sample : ∃ s : Pool 1, s.workers 0 = .run ⟨0, 7, 1, 2⟩ ∧
    s.jobs = [⟨1, 8, 1, NULL⟩] ∧ s.taken ++ s.jobs = s.accepted ∧
    (∀ j ∈ s.accepted, s.Queued j ∨ s.Held j ∨ s.Finished j) := by
  have hrun : (runSteps step sampleJobs (init 1)).map (fun s => (s.workers 0, s.jobs)) =
      some (.run ⟨0, 7, 1, 2⟩, [⟨1, 8, 1, NULL⟩]) := by decide
  obtain ⟨s, hs, heq⟩ := Option.map_eq_some_iff.mp hrun
  obtain ⟨hworker, hjobs⟩ := Prod.mk.inj heq
  have hreached := Reached.init.runSteps_of_allMeet
    (fun (_ : Pool 1) (l : Label 1) => l ≠ .shutdown) sampleJobs (by decide) hs
  obtain ⟨-, horder, haccounted, -⟩ := jobs_once (by decide) hreached
  exact ⟨s, hworker, hjobs, horder, haccounted⟩

end Pool

end OpxCommonUtils.Thread
