import OpxCommonUtils.Service.Sockets

/-!
# One job for a descriptor

While a job has a descriptor, the descriptor is not pending, so that no second job gets it; and a
descriptor is pending only after its connection was admitted. Both hold as long as the server closes
no descriptor that a job still has.
-/

namespace OpxCommonUtils.Service

namespace StdSocketService

variable (p : StdSocketService) (l : List Int)

theorem foldl_dropClosed : (l.foldl dropClosed p).mClients = p.mClients \ l.toFinset ∧
    (l.foldl dropClosed p).pending = p.pending \ l.toFinset ∧
    (l.foldl dropClosed p).mPendingClose = p.mPendingClose \ l.toFinset := by
  induction l generalizing p with
  | nil => simp
  | cons fd l ih =>
    obtain ⟨hc, hp, hm⟩ := ih (p.dropClosed fd)
    have hclients : (p.dropClosed fd).mClients = p.mClients.erase fd := by
      rw [dropClosed]
      split_ifs with hmem
      · rfl
      · rw [Finset.erase_eq_of_notMem hmem]
    rw [List.foldl_cons, hc, hp, hm, hclients, List.toFinset_cons]
    refine ⟨?_, ?_, ?_⟩
    · rw [Finset.sdiff_insert, ← Finset.erase_sdiff_comm]
    · rw [Finset.sdiff_insert, ← Finset.erase_sdiff_comm]
      rfl
    · rw [Finset.sdiff_insert, ← Finset.erase_sdiff_comm]
      rfl

@[simp] theorem mClients_processClosed :
    p.processClosed.mClients = p.mClients \ p.mPendingClose := by
  rw [processClosed, (foldl_dropClosed p _).1, ascending_toFinset]

@[simp] theorem pending_processClosed :
    p.processClosed.pending = p.pending \ p.mPendingClose := by
  rw [processClosed, (foldl_dropClosed p _).2.1, ascending_toFinset]

@[simp] theorem mPendingClose_processClosed : p.processClosed.mPendingClose = ∅ := by
  rw [processClosed, (foldl_dropClosed p _).2.2, ascending_toFinset, Finset.sdiff_self]

theorem foldl_pendClose : (l.foldl pendClose p).mClients = p.mClients ∧
    (l.foldl pendClose p).pending = p.pending ∧
    ∀ fd, fd ∈ (l.foldl pendClose p).mPendingClose ↔ fd ∈ p.mPendingClose ∨ fd ∈ l := by
  induction l generalizing p with
  | nil => simp
  | cons fd l ih =>
    obtain ⟨hc, hp, hm⟩ := ih (p.pendClose fd)
    refine ⟨hc, hp, fun fd' => ?_⟩
    rw [List.foldl_cons, hm, pendClose, Finset.mem_insert, List.mem_cons]
    tauto

end StdSocketService

/-! ## Steps -/

/-- What the steps do, without regard to whether the server has to wait. -/
inductive Steps : Label → State → State → Prop
  | processClosed {s : State} : s.phase = .top → Steps .processClosed s
      { s with
        svc := s.svc.processClosed
        phase := .closed
        holder := fun fd => if fd ∈ s.svc.mPendingClose then none else s.holder fd }
  | select {s : State} {rset : Finset Int} : s.phase = .closed → rset ⊆ s.svc.pending →
      Steps (.select rset) s { s with phase := .sockets rset }
  | selectNone {s : State} {bad : Finset Int} : s.phase = .closed → bad ⊆ s.svc.pending →
      (∀ fd ∈ bad, s.holder fd = none) → Steps (.selectNone bad) s
        { s with svc := (ascending bad).foldl StdSocketService.pendClose s.svc, phase := .top }
  | acceptNone {s : State} {rset : Finset Int} {queued : Bool} : s.phase = .sockets rset →
      Steps (.accept none queued) s (s.toServe rset)
  | accept {s : State} {rset : Finset Int} {fd : Int} {queued : Bool} : s.phase = .sockets rset →
      s.holder fd = none → Steps (.accept (some fd) queued) s
        (((s.addClient fd).toServe rset).queueJob .newClient fd queued)
  | serve {s : State} {rset : Finset Int} {fd : Int} {todo : List Int} {queued : Bool} :
      s.phase = .serve rset (fd :: todo) → fd ∈ rset → Steps (.serve queued) s
        ({ s with svc := s.svc.busy fd, phase := .serve rset todo }.queueJob .data fd queued)
  | skip {s : State} {rset : Finset Int} {fd : Int} {todo : List Int} {queued : Bool} :
      s.phase = .serve rset (fd :: todo) → fd ∉ rset → Steps (.serve queued) s
        { s with phase := .serve rset todo }
  | served {s : State} {rset : Finset Int} : s.phase = .serve rset [] →
      Steps .served s { s with phase := .top }
  | finish {s : State} {j : Job} {ok : Bool} : j ∈ s.jobs →
      Steps (.finish j ok) s (s.finish j ok)
  | clientClose {s : State} {fd : Int} :
      Steps (.clientClose fd) s { s with svc := s.svc.pendClose fd }

theorem serverStep_steps {l : Label} {s s' : State} (h : serverStep l s = some s') :
    Steps l s s' := by
  unfold serverStep at h
  split at h
  · next hphase => exact Option.some.inj h ▸ .processClosed hphase
  · next rset hphase =>
    split_ifs at h with hsub
    exact Option.some.inj h ▸ .select hphase hsub
  · next bad hphase =>
    split_ifs at h with hbad
    exact Option.some.inj h ▸ .selectNone hphase hbad.1 hbad.2
  · next rset hphase => exact Option.some.inj h ▸ .acceptNone hphase
  · next fd queued rset hphase =>
    split_ifs at h with hfree
    exact Option.some.inj h ▸ .accept hphase hfree
  · next queued rset fd todo hphase =>
    dsimp only at h
    split_ifs at h with hmem
    · exact Option.some.inj h ▸ .serve hphase hmem
    · exact Option.some.inj h ▸ .skip hphase hmem
  · next rset hphase => exact Option.some.inj h ▸ .served hphase
  · cases h

theorem step_steps {inline : Bool} {l : Label} {s s' : State} (h : step inline l s = some s') :
    Steps l s s' := by
  unfold step at h
  split at h
  · split_ifs at h with hmem
    exact Option.some.inj h ▸ .finish hmem
  · exact Option.some.inj h ▸ .clientClose
  · split_ifs at h
    exact serverStep_steps h
  · split_ifs at h
    exact serverStep_steps h
  · split_ifs at h
    exact serverStep_steps h

/-! ## The invariant -/

/-- The table of the kernel, the sets of the service and the jobs agree. -/
structure Inv (s : State) : Prop where
  clients : ∀ fd, fd ∈ s.svc.mClients ↔ s.holder fd ≠ none
  pending : ∀ fd ∈ s.svc.pending, fd ∈ s.svc.mClients ∧ s.holderAdmitted fd = true ∧
    ∀ j ∈ s.jobs, j.fd ≠ fd
  single : (s.jobs.map Job.fd).Nodup
  holds : ∀ j ∈ s.jobs, j.fd ∈ s.svc.mClients ∧ s.holder j.fd = j.conn
  data : ∀ j ∈ s.jobs, j.kind = .data → j.admitted = true ∧ s.holderAdmitted j.fd = true

/-- What the server has still to serve is pending. -/
def Phase.Ok (pending : Finset Int) : Phase → Prop
  | .top => True
  | .closed => True
  | .sockets rset => rset ⊆ pending
  | .serve rset todo => todo.Nodup ∧ ∀ fd ∈ todo, fd ∈ rset → fd ∈ pending

theorem Phase.Ok.mono {pending pending' : Finset Int} {phase : Phase} (h : phase.Ok pending)
    (hsub : pending ⊆ pending') : phase.Ok pending' := by
  cases phase with
  | top => trivial
  | closed => trivial
  | sockets rset => exact h.trans hsub
  | serve rset todo => exact ⟨h.1, fun fd hfd hr => hsub (h.2 fd hfd hr)⟩

/-- The server closes no descriptor that a job has. -/
def Quiet (s : State) (l : Label) : Prop :=
  l = .processClosed → ∀ fd ∈ s.svc.mPendingClose, ∀ j ∈ s.jobs, j.fd ≠ fd

instance (s : State) (l : Label) : Decidable (Quiet s l) :=
  inferInstanceAs (Decidable (l = .processClosed → _))

variable {s : State}

theorem quiet_of_ne {l : Label} (h : l ≠ .processClosed) : Quiet s l := fun heq => absurd heq h

theorem Inv.init : Inv State.init :=
  ⟨by simp [State.init], by simp [State.init], by simp [State.init], by simp [State.init],
    by simp [State.init]⟩

/-- Nothing of the invariant is about `m_pending_close`, the server's place or the number of
connections. -/
theorem Inv.congr (h : Inv s) {s' : State} (hc : s'.svc.mClients = s.svc.mClients)
    (hp : s'.svc.pending = s.svc.pending) (hj : s'.jobs = s.jobs) (hh : s'.holder = s.holder)
    (ha : s'.admitted = s.admitted) : Inv s' := by
  have hadm : ∀ fd, s'.holderAdmitted fd = s.holderAdmitted fd := by
    intro fd
    rw [State.holderAdmitted, State.holderAdmitted, hh, ha]
  constructor
  · rw [hc, hh]
    exact h.clients
  · rw [hc, hp, hj]
    intro fd hfd
    rw [hadm]
    exact h.pending fd hfd
  · rw [hj]
    exact h.single
  · rw [hj, hc, hh]
    exact h.holds
  · rw [hj]
    intro j hjob hk
    rw [hadm]
    exact h.data j hjob hk

/-- A free descriptor occurs nowhere. -/
theorem Inv.of_free (h : Inv s) {fd : Int} (hfree : s.holder fd = none) :
    fd ∉ s.svc.mClients ∧ fd ∉ s.svc.pending ∧ ∀ j ∈ s.jobs, j.fd ≠ fd := by
  have hclients : fd ∉ s.svc.mClients := fun hmem => (h.clients fd).mp hmem hfree
  refine ⟨hclients, fun hmem => hclients (h.pending fd hmem).1, ?_⟩
  rintro j hj rfl
  exact hclients (h.holds j hj).1

theorem holderAdmitted_iff {fd : Int} :
    s.holderAdmitted fd = true ↔ ∃ c ∈ s.admitted, s.holder fd = some c := by
  rw [State.holderAdmitted]
  cases s.holder fd with
  | none => simp
  | some c => simp

theorem Inv.processClosed (h : Inv s) (hquiet : Quiet s .processClosed) :
    Inv { s with
      svc := s.svc.processClosed
      phase := .closed
      holder := fun fd => if fd ∈ s.svc.mPendingClose then none else s.holder fd } := by
  have hadm : ∀ fd, fd ∉ s.svc.mPendingClose → State.holderAdmitted { s with
      svc := s.svc.processClosed
      phase := .closed
      holder := fun fd => if fd ∈ s.svc.mPendingClose then none else s.holder fd } fd =
        s.holderAdmitted fd := by
    intro fd hfd
    simp only [State.holderAdmitted, if_neg hfd]
  have hjob : ∀ j ∈ s.jobs, j.fd ∉ s.svc.mPendingClose :=
    fun j hj hmem => hquiet rfl j.fd hmem j hj rfl
  constructor
  · intro fd
    simp only [StdSocketService.mClients_processClosed, Finset.mem_sdiff, h.clients fd]
    by_cases hfd : fd ∈ s.svc.mPendingClose <;> simp [hfd]
  · intro fd hfd
    simp only [StdSocketService.pending_processClosed, Finset.mem_sdiff] at hfd
    obtain ⟨hc, ha, hj⟩ := h.pending fd hfd.1
    rw [hadm fd hfd.2]
    simp only [StdSocketService.mClients_processClosed, Finset.mem_sdiff]
    exact ⟨⟨hc, hfd.2⟩, ha, hj⟩
  · exact h.single
  · intro j hj
    obtain ⟨hc, hh⟩ := h.holds j hj
    simp only [StdSocketService.mClients_processClosed, Finset.mem_sdiff, if_neg (hjob j hj)]
    exact ⟨⟨hc, hjob j hj⟩, hh⟩
  · intro j hj hk
    rw [hadm j.fd (hjob j hj)]
    exact h.data j hj hk

theorem Inv.addClient (h : Inv s) {fd : Int} (hfree : s.holder fd = none) :
    Inv (s.addClient fd) := by
  obtain ⟨-, hnp, hnj⟩ := h.of_free hfree
  have hadm : ∀ fd', fd' ≠ fd → (s.addClient fd).holderAdmitted fd' = s.holderAdmitted fd' := by
    intro fd' hne
    simp only [State.holderAdmitted, State.addClient, if_neg hne]
    rfl
  constructor
  · intro fd'
    simp only [State.addClient, Finset.mem_insert, h.clients fd']
    by_cases hfd : fd' = fd <;> simp [hfd]
  · intro fd' hfd
    obtain ⟨hc, ha, hj⟩ := h.pending fd' hfd
    have hne : fd' ≠ fd := fun heq => hnp (heq ▸ hfd)
    rw [hadm fd' hne]
    exact ⟨Finset.mem_insert_of_mem hc, ha, hj⟩
  · exact h.single
  · intro j hj
    obtain ⟨hc, hh⟩ := h.holds j hj
    simp only [State.addClient, if_neg (hnj j hj)]
    exact ⟨Finset.mem_insert_of_mem hc, hh⟩
  · intro j hj hk
    rw [hadm j.fd (hnj j hj)]
    exact h.data j hj hk

/-- A client's descriptor that is not pending and that no job has may be given to a job; to one for
data when its connection was admitted. -/
theorem Inv.queueJob (h : Inv s) {kind : Kind} {fd : Int} (queued : Bool)
    (hc : fd ∈ s.svc.mClients) (hp : fd ∉ s.svc.pending) (hj : ∀ j ∈ s.jobs, j.fd ≠ fd)
    (hk : kind = .data → s.holderAdmitted fd = true) : Inv (s.queueJob kind fd queued) := by
  cases queued with
  | false => exact h.congr rfl rfl rfl rfl rfl
  | true =>
    constructor
    · exact h.clients
    · intro fd' hfd
      obtain ⟨hc', ha, hj'⟩ := h.pending fd' hfd
      refine ⟨hc', ha, fun j hmem => ?_⟩
      rcases List.mem_append.mp hmem with hold | hnew
      · exact hj' j hold
      · obtain rfl := List.mem_singleton.mp hnew
        rintro rfl
        exact hp hfd
    · show ((s.jobs ++ [_]).map Job.fd).Nodup
      rw [List.map_append, List.nodup_append]
      refine ⟨h.single, List.nodup_singleton _, ?_⟩
      intro a ha b hb
      obtain ⟨j, hmem, rfl⟩ := List.mem_map.mp ha
      obtain rfl : b = fd := List.mem_singleton.mp hb
      exact hj j hmem
    · intro j hmem
      rcases List.mem_append.mp hmem with hold | hnew
      · exact h.holds j hold
      · obtain rfl := List.mem_singleton.mp hnew
        exact ⟨hc, rfl⟩
    · intro j hmem hkind
      rcases List.mem_append.mp hmem with hold | hnew
      · exact h.data j hold hkind
      · obtain rfl := List.mem_singleton.mp hnew
        exact ⟨hk hkind, hk hkind⟩

theorem holderAdmitted_mono {fd : Int} (j : Job) (ok : Bool)
    (h : s.holderAdmitted fd = true) : (s.finish j ok).holderAdmitted fd = true := by
  obtain ⟨c, hc, hh⟩ := holderAdmitted_iff.mp h
  refine holderAdmitted_iff.mpr ⟨c, ?_, hh⟩
  simp only [State.finish]
  split
  · exact Finset.mem_insert_of_mem hc
  · exact hc

@[simp] theorem mClients_finish (s : State) (j : Job) (ok : Bool) :
    (s.finish j ok).svc.mClients = s.svc.mClients := by
  cases ok with
  | false => rfl
  | true =>
    simp only [State.finish, if_true, StdSocketService.returned]
    split_ifs <;> rfl

theorem mem_pending_finish {fd : Int} {j : Job} {ok : Bool}
    (h : fd ∈ (s.finish j ok).svc.pending) : fd ∈ s.svc.pending ∨ ok = true ∧ fd = j.fd := by
  cases ok with
  | false => exact .inl h
  | true =>
    simp only [State.finish, if_true, StdSocketService.returned] at h
    split_ifs at h
    · exact (Finset.mem_insert.mp h).symm.imp_right fun heq => ⟨rfl, heq⟩
    · exact .inl h

theorem pending_finish (s : State) (j : Job) (ok : Bool) :
    s.svc.pending ⊆ (s.finish j ok).svc.pending := by
  cases ok with
  | false => exact subset_rfl
  | true =>
    simp only [State.finish, if_true, StdSocketService.returned]
    split_ifs
    · exact Finset.subset_insert ..
    · exact subset_rfl

/-- The other jobs have other descriptors. -/
theorem Inv.of_mem_erase (h : Inv s) {j j' : Job} (hj : j ∈ s.jobs) (hj' : j' ∈ s.jobs.erase j) :
    j' ∈ s.jobs ∧ j'.fd ≠ j.fd := by
  rw [h.single.of_map.mem_erase_iff] at hj'
  exact ⟨hj'.2, fun heq => hj'.1 (List.inj_on_of_nodup_map h.single hj'.2 hj heq)⟩

/-- The connection of a job that ends with true was admitted before, or the callback admits it. -/
theorem Inv.holderAdmitted_finish (h : Inv s) {j : Job} (hj : j ∈ s.jobs) :
    (s.finish j true).holderAdmitted j.fd = true := by
  obtain ⟨hjc, hjh⟩ := h.holds j hj
  cases hk : j.kind with
  | data => exact holderAdmitted_mono j true (h.data j hj hk).2
  | newClient =>
    cases hconn : j.conn with
    | none => exact absurd (hjh.trans hconn) ((h.clients j.fd).mp hjc)
    | some c =>
      refine holderAdmitted_iff.mpr ⟨c, ?_, hjh.trans hconn⟩
      simp only [State.finish, hk, hconn]
      exact Finset.mem_insert_self ..

/-- A job that ends gives its descriptor back or has it closed. -/
theorem Inv.finish (h : Inv s) {j : Job} (hj : j ∈ s.jobs) (ok : Bool) : Inv (s.finish j ok) := by
  constructor
  · rw [mClients_finish]
    exact h.clients
  · intro fd hfd
    rw [mClients_finish]
    rcases mem_pending_finish hfd with hold | ⟨rfl, rfl⟩
    · obtain ⟨hc, ha, hjobs⟩ := h.pending fd hold
      exact ⟨hc, holderAdmitted_mono j ok ha, fun j' hj' => hjobs j' (h.of_mem_erase hj hj').1⟩
    · exact ⟨(h.holds j hj).1, h.holderAdmitted_finish hj, fun j' hj' => (h.of_mem_erase hj hj').2⟩
  · exact h.single.sublist ((List.erase_sublist ..).map _)
  · intro j' hj'
    rw [mClients_finish]
    exact h.holds j' (h.of_mem_erase hj hj').1
  · intro j' hj' hk
    obtain ⟨ha, hh⟩ := h.data j' (h.of_mem_erase hj hj').1 hk
    exact ⟨ha, holderAdmitted_mono j ok hh⟩

/-- Every step that closes no descriptor of a job keeps the invariant. -/
theorem Inv.steps {l : Label} {s' : State} (h : Inv s ∧ s.phase.Ok s.svc.pending)
    (hquiet : Quiet s l) (hstep : Steps l s s') : Inv s' ∧ s'.phase.Ok s'.svc.pending := by
  obtain ⟨h, hphase⟩ := h
  have hsort : ∀ rset : Finset Int, rset ⊆ s.svc.pending → ∀ clients : Finset Int,
      (Phase.serve rset (ascending clients)).Ok s.svc.pending :=
    fun rset hsub clients => ⟨ascending_nodup clients, fun fd _ hr => hsub hr⟩
  cases hstep with
  | processClosed _ => exact ⟨h.processClosed hquiet, trivial⟩
  | select _ hsub => exact ⟨h.congr rfl rfl rfl rfl rfl, hsub⟩
  | @selectNone _ bad _ _ _ =>
    obtain ⟨hc, hp, -⟩ := StdSocketService.foldl_pendClose s.svc (ascending bad)
    exact ⟨h.congr hc hp rfl rfl rfl, trivial⟩
  | @acceptNone _ rset _ hat =>
    rw [hat] at hphase
    exact ⟨h.congr rfl rfl rfl rfl rfl, hsort rset hphase _⟩
  | @accept _ rset fd queued hat hfree =>
    rw [hat] at hphase
    obtain ⟨-, hnp, hnj⟩ := h.of_free hfree
    have hserve : Inv ((s.addClient fd).toServe rset) :=
      (h.addClient hfree).congr rfl rfl rfl rfl rfl
    refine ⟨hserve.queueJob queued (Finset.mem_insert_self ..) hnp hnj nofun, ?_⟩
    cases queued with
    | false => exact hsort rset hphase _
    | true => exact hsort rset hphase _
  | @serve _ rset fd todo queued hat hmem =>
    rw [hat] at hphase
    obtain ⟨hnodup, hpend⟩ := hphase
    obtain ⟨hc, ha, hj⟩ := h.pending fd (hpend fd (by simp) hmem)
    have hbusy : Inv { s with svc := s.svc.busy fd, phase := .serve rset todo } := by
      refine ⟨h.clients, fun fd' hfd' => ?_, h.single, h.holds, h.data⟩
      exact h.pending fd' (Finset.mem_of_mem_erase hfd')
    refine ⟨hbusy.queueJob queued hc (Finset.notMem_erase fd s.svc.pending) hj (fun _ => ha), ?_⟩
    have hok : (Phase.serve rset todo).Ok (s.svc.pending.erase fd) := by
      refine ⟨hnodup.of_cons, fun fd' hfd' hr => Finset.mem_erase.mpr ⟨?_, ?_⟩⟩
      · rintro rfl
        exact hnodup.notMem hfd'
      · exact hpend fd' (by simp [hfd']) hr
    cases queued with
    | false => exact hok
    | true => exact hok
  | @skip _ rset fd todo _ hat _ =>
    rw [hat] at hphase
    exact ⟨h.congr rfl rfl rfl rfl rfl, hphase.1.of_cons,
      fun fd' hfd' => hphase.2 fd' (by simp [hfd'])⟩
  | served _ => exact ⟨h.congr rfl rfl rfl rfl rfl, trivial⟩
  | @finish _ j ok hj => exact ⟨h.finish hj ok, hphase.mono (pending_finish s j ok)⟩
  | clientClose => exact ⟨h.congr rfl rfl rfl rfl rfl, hphase⟩

/-! ## Runs -/

/-- At most one job has a descriptor, and each job for data was queued after the callback for new
clients returned true for the connection that had the descriptor then. -/
structure OneJob (s : State) : Prop where
  single : ∀ fd, (s.jobs.filter (·.fd = fd)).length ≤ 1
  admitted : ∀ j ∈ s.jobs, j.kind = .data → j.admitted = true

theorem Inv.oneJob (h : Inv s) : OneJob s := by
  refine ⟨fun fd => ?_, fun j hj hk => (h.data j hj hk).1⟩
  have hcount : (s.jobs.filter (·.fd = fd)).length = (s.jobs.map Job.fd).count fd := by
    rw [List.count, List.countP_map, List.countP_eq_length_filter]
    rfl
  rw [hcount]
  exact List.nodup_iff_count_le_one.mp h.single fd

theorem inv_of_reached {inline : Bool} (h : Reached (step inline) Quiet State.init s) : Inv s :=
  (h.invariant (P := fun s => Inv s ∧ s.phase.Ok s.svc.pending) ⟨Inv.init, trivial⟩
    (fun hs hquiet hrun => Inv.steps hs hquiet (step_steps hrun))).1

/-- A server that runs the jobs itself never closes a descriptor that a job has. -/
theorem quiet_of_inline {l : Label} {s' : State} (h : step true l s = some s') : Quiet s l := by
  rintro rfl fd - j hj
  have hwait : step true .processClosed s = none := if_pos ⟨rfl, List.ne_nil_of_mem hj⟩
  rw [hwait] at h
  cases h

/-- With a pool of at most one thread there is one job for a descriptor in every run. -/
theorem oneJob_of_inline (h : Reached (step true) (fun _ _ => True) State.init s) : OneJob s := by
  refine (h.invariant (P := fun s => Inv s ∧ s.phase.Ok s.svc.pending) ⟨Inv.init, trivial⟩
    fun hs _ hrun => Inv.steps hs (quiet_of_inline hrun) (step_steps hrun)).1.oneJob

theorem not_oneJob_queueJob {kind : Kind} {j : Job} (hj : j ∈ s.jobs) :
    ¬ OneJob (s.queueJob kind j.fd true) := by
  intro hone
  have hsingle := hone.single j.fd
  have hpos := List.length_pos_of_mem (List.mem_filter.mpr ⟨hj, decide_eq_true rfl⟩ :
    j ∈ s.jobs.filter (·.fd = j.fd))
  simp only [State.queueJob, if_true, List.filter_append, List.length_append, decide_true,
    List.filter_cons_of_pos, List.filter_nil, List.length_singleton] at hsingle
  omega

/-- A descriptor that is free while a job has it can be given to the next connection. -/
theorem two_jobs_of_free (hat : s.phase = .closed) {j : Job} (hj : j ∈ s.jobs)
    (hfree : s.holder j.fd = none) : ∃ s₂, runSteps (step false)
      [.select ∅, .accept (some j.fd) true] s = some s₂ ∧ ¬ OneJob s₂ := by
  refine ⟨((({ s with phase := .sockets ∅ }).addClient j.fd).toServe ∅).queueJob .newClient j.fd
    true, ?_, not_oneJob_queueJob (by exact hj)⟩
  simp [runSteps, step, serverStep, hat, hfree]

/-- In every run in which the server closes no descriptor that a job has there is one job for a
descriptor; and when the server does close such a descriptor, the kernel can give the number to the
next connection, so that two jobs have it. -/
theorem one_job_per_descriptor {inline : Bool} {s : State}
    (h : Reached (step inline) Quiet State.init s) : OneJob s ∧
      ∀ s₁, step inline .processClosed s = some s₁ → ¬ Quiet s .processClosed →
        ∃ ls s₂, runSteps (step inline) ls s₁ = some s₂ ∧ ¬ OneJob s₂ := by
  refine ⟨(inv_of_reached h).oneJob, fun s₁ hrun hloud => ?_⟩
  cases inline with
  | true => exact absurd (quiet_of_inline hrun) hloud
  | false =>
    simp only [Quiet, true_implies, not_forall, not_not] at hloud
    obtain ⟨fd, hfd, j, hj, rfl⟩ := hloud
    cases step_steps hrun with
    | processClosed hat =>
      exact ⟨_, two_jobs_of_free rfl hj (if_pos hfd)⟩

/-- A connection is admitted and sends, its job for data fails so that the server closes it, and the
number is given to the next one. -/
def closingRun : List Label := [
  .processClosed, .select ∅, .accept (some 5) true, .serve true, .served,
  .finish ⟨.newClient, 5, some 0, false⟩ true,
  .processClosed, .select {5}, .accept none true, .serve true, .served,
  .finish ⟨.data, 5, some 0, true⟩ false,
  .processClosed, .select ∅, .accept (some 5) true]

/-- In the end of `closingRun` the one job is that of the second connection. -/
theorem one_job_per_descriptor_sample : ∃ s, Reached (step false) Quiet State.init s ∧
    s.jobs = [⟨.newClient, 5, some 1, false⟩] ∧ OneJob s := by
  have hjobs : (runSteps (step false) closingRun State.init).map State.jobs =
      some [⟨.newClient, 5, some 1, false⟩] := by decide +kernel
  obtain ⟨s, hrun, heq⟩ := Option.map_eq_some_iff.mp hjobs
  have hreached := Reached.runSteps_of_allMeet Quiet closingRun .init (by decide +kernel) hrun
  exact ⟨s, hreached, heq, (one_job_per_descriptor hreached).1⟩

/-- The jobs of this run are at descriptor 5 only: a job for data is running when another thread has
the descriptor closed, the number is given to the next connection, and the job returns it. -/
def reuseRun : List Label := [
  .processClosed, .select ∅, .accept (some 5) true, .serve true, .served,
  .finish ⟨.newClient, 5, some 0, false⟩ true,
  .processClosed, .select {5}, .accept none true, .serve true, .served,
  .clientClose 5,
  .processClosed, .select ∅, .accept (some 5) true, .serve true, .served,
  .finish ⟨.data, 5, some 0, true⟩ true,
  .processClosed, .select {5}, .accept none true, .serve true]

/-- Two jobs have descriptor 5 in the end, and the second is one for data of a connection that the
callback for new clients has not admitted. -/
theorem two_jobs_for_descriptor : ∃ s, Reached (step false) (fun _ _ => True) State.init s ∧
    ¬ (s.jobs.filter (·.fd = 5)).length ≤ 1 ∧
    ¬ ∀ j ∈ s.jobs, j.kind = .data → j.admitted = true := by
  have hjobs : (runSteps (step false) reuseRun State.init).map State.jobs =
      some [⟨.newClient, 5, some 1, false⟩, ⟨.data, 5, some 1, false⟩] := by decide +kernel
  obtain ⟨s, hrun, heq⟩ := Option.map_eq_some_iff.mp hjobs
  refine ⟨s, Reached.init.runSteps reuseRun (fun _ _ _ => trivial) hrun, ?_, ?_⟩
  · rw [heq]
    decide
  · rw [heq]
    decide

end OpxCommonUtils.Service
