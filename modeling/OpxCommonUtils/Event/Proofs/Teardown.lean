import OpxCommonUtils.Event.Proofs.Routing
import OpxCommonUtils.Event.Server
import OpxCommonUtils.Service.Proofs.OneJob

/-!
# Closed connections

What the tables of the event server hold belongs to connections that are open and admitted, as long
as the server closes no descriptor that only a failed send has given to it. A failed send does not
take the client out of the tables; its data job does, when it fails before the descriptor is closed.
-/

namespace OpxCommonUtils.Event

open Service

/-! ## What a frame changes -/

variable {σ : Type} {send : Send σ} {list : Nat → Exec UInt32}

/-- What every attempt keeps holds after publishing. -/
theorem publishLoop_invariant {P : Attempts σ → Prop}
    (hstep : ∀ a fd, P a → P (attempt send a fd)) (k : Nat) :
    ∀ {ix : Nat} {cur : StdNode} {a a' : Attempts σ}, P a →
      publishLoop send list k ix cur a = .ok a' → P a' := by
  have hfold : ∀ (fds : List Int) (a : Attempts σ), P a → P (fds.foldl (attempt send) a) := by
    intro fds
    induction fds with
    | nil => exact fun a h => h
    | cons fd fds ih => exact fun a h => ih _ (hstep a fd h)
  induction k with
  | zero =>
    intro ix cur a a' h hrun
    exact Except.ok.inj hrun ▸ h
  | succ k ih =>
    intro ix cur a a' h hrun
    rw [publishLoop] at hrun
    obtain ⟨id, -, hrun⟩ := exec_bind_eq_ok.mp hrun
    cases hnext : cur.mNodes id with
    | none =>
      simp only [hnext] at hrun
      exact Except.ok.inj hrun ▸ h
    | some next =>
      simp only [hnext] at hrun
      exact ih (hfold _ a h) hrun

/-- Only descriptors are tried that the tree holds for a part of the key from its start. -/
theorem publishLoop_fds (k : Nat) : ∀ {ix : Nat} {cur : StdNode} {a a' : Attempts σ}, a.Ok →
    publishLoop send list k ix cur a = .ok a' → ∀ fd ∈ a'.fds, fd ∈ a.fds ∨
      ∃ K, K ≠ [] ∧ K.length ≤ k ∧ StdNode.Lists list ix K ∧ fd ∈ cur.clientsAt K := by
  induction k with
  | zero =>
    intro ix cur a a' _ hrun fd hfd
    exact .inl (Except.ok.inj hrun ▸ hfd)
  | succ k ih =>
    intro ix cur a a' hok hrun fd hfd
    rw [publishLoop] at hrun
    obtain ⟨id, hid, hrun⟩ := exec_bind_eq_ok.mp hrun
    cases hnext : cur.mNodes id with
    | none =>
      simp only [hnext] at hrun
      exact .inl (Except.ok.inj hrun ▸ hfd)
    | some next =>
      simp only [hnext] at hrun
      have hat : ∀ K, cur.clientsAt (id :: K) = next.clientsAt K := fun K => by
        rw [StdNode.clientsAt_cons, hnext, Option.elim_some]
      obtain ⟨hok', hmem⟩ := hok.publish send next
      rcases ih hok' hrun fd hfd with hold | ⟨K, -, hlen, hlists, hin⟩
      · rcases (hmem fd).mp hold with hold | hnew
        · exact .inl hold
        · exact .inr ⟨[id], by simp, by simp, ⟨hid, trivial⟩, by rwa [hat]⟩
      · exact .inr ⟨id :: K, by simp, by simpa using hlen, ⟨hid, hlists⟩, by rwa [hat]⟩

/-- A walk that ends at a node has read every element of the key. -/
theorem update_lists {create : Bool} {op : StdNode → StdNode} (k : Nat) :
    ∀ {ix : Nat} {cur cur' : StdNode}, cur.update list create op k ix = .ok (some cur') →
      ∃ K, K.length = k ∧ StdNode.Lists list ix K := by
  induction k with
  | zero => exact fun _ => ⟨[], rfl, trivial⟩
  | succ k ih =>
    intro ix cur cur' hrun
    rw [StdNode.update] at hrun
    obtain ⟨id, hid, hrun⟩ := exec_bind_eq_ok.mp hrun
    have hrest : ∀ {next : StdNode} {up : StdNode → StdNode},
        (next.update list create op k (ix + 1) >>= fun r => (.ok (r.map up) : Exec _)) =
          .ok (some cur') → ∃ K, K.length = k + 1 ∧ StdNode.Lists list ix K := by
      intro next up h
      obtain ⟨r, hr, heq⟩ := exec_bind_eq_ok.mp h
      obtain ⟨next', rfl, -⟩ := Option.map_eq_some_iff.mp (Except.ok.inj heq)
      obtain ⟨K, hlen, hlists⟩ := ih hr
      exact ⟨id :: K, by rw [List.length_cons, hlen], hid, hlists⟩
    cases hnext : cur.mNodes id with
    | some next =>
      simp only [hnext] at hrun
      exact hrest hrun
    | none =>
      simp only [hnext] at hrun
      cases create with
      | false => cases hrun
      | true =>
        simp only [if_true] at hrun
        exact hrest hrun

/-- The frame asks for a registration for `K`. -/
def Requests (e : Endian) (mem : Mem) (K : List UInt32) : Prop :=
  load32 e mem 0 = .ok event_serv_msg_t_ADD_REG ∧ load32 e mem 4 = .ok K.length ∧
    StdNode.Lists (keyList e mem 4) 0 K

variable {e : Endian} {fd : Int} {size : Nat} {mem : Mem} {tree : StdClientTree} {world : σ}
  {eff : Effect σ}

/-- A frame adds no registration but one it asks for, and only a message changes the world. -/
theorem handleFrame_cases (h : handleFrame e fd send size mem tree world = .ok eff) :
    (∀ fd' K, fd' ∈ eff.tree.head.clientsAt K →
      fd' ∈ tree.head.clientsAt K ∨ fd' = fd ∧ Requests e mem K) ∧
    (eff.published = none ∧ eff.world = world ∨
      ∃ msg log len, eff.published = some (msg, log) ∧
        tree.publish send world (keyList e mem 4) len = .ok (log, eff.world)) := by
  have hsame : ∀ fd' K, fd' ∈ tree.head.clientsAt K →
      fd' ∈ tree.head.clientsAt K ∨ fd' = fd ∧ Requests e mem K := fun _ _ hin => .inl hin
  rw [handleFrame] at h
  by_cases hsize : size < sizeofServMsg
  · rw [if_pos hsize] at h
    obtain rfl := Except.ok.inj h
    exact ⟨hsame, .inl ⟨rfl, rfl⟩⟩
  rw [if_neg hsize] at h
  obtain ⟨op, hop, h⟩ := exec_bind_eq_ok.mp h
  by_cases h0 : op = event_serv_msg_t_ADD_REG
  · rw [if_pos h0] at h
    obtain ⟨len, hlen, h⟩ := exec_bind_eq_ok.mp h
    obtain ⟨⟨ret, tree'⟩, hreg, h⟩ := exec_bind_eq_ok.mp h
    obtain rfl := Except.ok.inj h
    refine ⟨fun fd' K hin => ?_, .inl ⟨rfl, rfl⟩⟩
    obtain ⟨r, hr, hreg⟩ := exec_bind_eq_ok.mp hreg
    cases r with
    | none =>
      obtain ⟨-, rfl⟩ := Prod.mk.inj (Except.ok.inj hreg)
      exact .inl hin
    | some head =>
      obtain ⟨-, rfl⟩ := Prod.mk.inj (Except.ok.inj hreg)
      obtain ⟨K₀, hK₀, hlists⟩ := update_lists len hr
      rcases StdNode.update_spec (StdNode.local_insert fd) true K₀ 0 tree.head hlists with
        ⟨head', hrun, hat⟩ | ⟨-, hcreate, -⟩
      · rw [hK₀, hr] at hrun
        obtain rfl := Option.some.inj (Except.ok.inj hrun)
        rw [hat] at hin
        by_cases hK : K = K₀
        · rw [if_pos hK, ← hK, Finset.mem_union, Finset.mem_singleton] at hin
          refine hin.imp_right fun heq => ⟨heq, ?_, ?_, ?_⟩
          · rw [hop, h0]
          · rw [hlen, hK, hK₀]
          · rw [hK]
            exact hlists
        · rw [if_neg hK] at hin
          exact .inl hin
      · cases hcreate
  rw [if_neg h0] at h
  by_cases h1 : op = event_serv_msg_t_DEL_REG
  · rw [if_pos h1] at h
    obtain ⟨len, hlen, h⟩ := exec_bind_eq_ok.mp h
    obtain ⟨⟨ret, tree'⟩, hreg, h⟩ := exec_bind_eq_ok.mp h
    obtain rfl := Except.ok.inj h
    refine ⟨fun fd' K hin => .inl ?_, .inl ⟨rfl, rfl⟩⟩
    obtain ⟨r, hr, hreg⟩ := exec_bind_eq_ok.mp hreg
    cases r with
    | none =>
      obtain ⟨-, rfl⟩ := Prod.mk.inj (Except.ok.inj hreg)
      exact hin
    | some head =>
      obtain ⟨-, rfl⟩ := Prod.mk.inj (Except.ok.inj hreg)
      obtain ⟨K₀, hK₀, hlists⟩ := update_lists len hr
      rcases StdNode.update_spec (StdNode.local_remove fd) false K₀ 0 tree.head hlists with
        ⟨head', hrun, hat⟩ | ⟨hrun, -, -⟩
      · rw [hK₀, hr] at hrun
        obtain rfl := Option.some.inj (Except.ok.inj hrun)
        rw [hat] at hin
        by_cases hK : K = K₀
        · rw [if_pos hK, ← hK] at hin
          exact Finset.mem_of_mem_erase hin
        · rwa [if_neg hK] at hin
      · rw [hK₀, hr] at hrun
        cases hrun
  rw [if_neg h1] at h
  by_cases h2 : op = event_serv_msg_t_PUBLISH
  · rw [if_pos h2] at h
    obtain ⟨dataLen, -, h⟩ := exec_bind_eq_ok.mp h
    by_cases hfit : size < sizeofServMsg + sizeofEventMsg + dataLen
    · rw [if_pos hfit] at h
      obtain rfl := Except.ok.inj h
      exact ⟨hsame, .inl ⟨rfl, rfl⟩⟩
    rw [if_neg hfit] at h
    obtain ⟨msg, -, h⟩ := exec_bind_eq_ok.mp h
    obtain ⟨len, -, h⟩ := exec_bind_eq_ok.mp h
    obtain ⟨⟨log, world'⟩, hpub, h⟩ := exec_bind_eq_ok.mp h
    obtain rfl := Except.ok.inj h
    exact ⟨hsame, .inr ⟨msg, log, len, rfl, hpub⟩⟩
  rw [if_neg h2] at h
  by_cases h3 : op = event_serv_msg_t_BUFFER
  · rw [if_pos h3] at h
    obtain ⟨bs, -, h⟩ := exec_bind_eq_ok.mp h
    obtain rfl := Except.ok.inj h
    exact ⟨hsame, .inl ⟨rfl, rfl⟩⟩
  · rw [if_neg h3] at h
    obtain rfl := Except.ok.inj h
    exact ⟨hsame, .inl ⟨rfl, rfl⟩⟩

/-- Publishing tries descriptors that the tree holds for a part of the key from its start. -/
theorem publish_fds {len : Nat} {log : List (Int × Bool)} {world' : σ}
    (h : tree.publish send world list len = .ok (log, world')) : ∀ fd ∈ log.map Prod.fst,
      ∃ K, K ≠ [] ∧ K.length ≤ len ∧ StdNode.Lists list 0 K ∧ fd ∈ tree.head.clientsAt K := by
  obtain ⟨a, hrun, heq⟩ := exec_bind_eq_ok.mp h
  obtain ⟨rfl, -⟩ := Prod.mk.inj (Except.ok.inj heq)
  have hok : a.Ok := publishLoop_invariant (fun a fd h => (h.attempt send fd).1) len
    (Attempts.ok_nil world) hrun
  intro fd hfd
  rcases publishLoop_fds len (Attempts.ok_nil world) hrun fd ((hok.mem fd).mpr hfd) with
    hin | hin
  · simp at hin
  · exact hin

/-- Publishing gives the descriptors of failed sends to `pend_close` and does nothing else to the
service. -/
theorem publish_sendOrClose {failing : Finset Int} {svc svc' : StdSocketService} {len : Nat}
    {log : List (Int × Bool)}
    (h : tree.publish (sendOrClose failing) svc list len = .ok (log, svc')) :
    svc'.mClients = svc.mClients ∧ svc'.pending = svc.pending ∧
      ∀ fd, fd ∈ svc'.mPendingClose ↔ fd ∈ svc.mPendingClose ∨ (fd, false) ∈ log := by
  obtain ⟨a, hrun, heq⟩ := exec_bind_eq_ok.mp h
  obtain ⟨rfl, rfl⟩ := Prod.mk.inj (Except.ok.inj heq)
  refine publishLoop_invariant (P := fun a => a.world.mClients = svc.mClients ∧
    a.world.pending = svc.pending ∧
    ∀ fd, fd ∈ a.world.mPendingClose ↔ fd ∈ svc.mPendingClose ∨ (fd, false) ∈ a.log)
    ?_ len ⟨rfl, rfl, by simp⟩ hrun
  rintro a fd ⟨hc, hp, hm⟩
  rw [attempt]
  split_ifs with hin
  · exact ⟨hc, hp, hm⟩
  · rw [sendOrClose]
    split_ifs with hfail
    · refine ⟨hc, hp, fun fd' => ?_⟩
      simp only [StdSocketService.pendClose, Finset.mem_insert, hm, List.mem_append,
        List.mem_singleton, Prod.mk.injEq, and_true]
      tauto
    · refine ⟨hc, hp, fun fd' => ?_⟩
      simp only [hm, List.mem_append, List.mem_singleton, Prod.mk.injEq, Bool.false_eq_true,
        and_false, or_false]

/-! ## The invariant -/

/-- The connection has itself asked for a registration for `K`. -/
def SelfRegistered (e : Endian) (handled : List (Option Nat × Mem)) (c : Nat) (K : List UInt32) :
    Prop :=
  ∃ mem, (some c, mem) ∈ handled ∧ Requests e mem K

/-- What the tables hold belongs to the connections that have the descriptors. -/
structure ServerInv (e : Endian) (s : Server) : Prop where
  sys : Inv s.sys
  phase : s.sys.phase.Ok s.sys.svc.pending
  clients : ∀ fd ∈ s.clients, s.sys.holderAdmitted fd = true
  pending : ∀ fd ∈ s.sys.svc.pending, fd ∈ s.clients
  tree : ∀ fd K, fd ∈ s.tree.head.clientsAt K → fd ∈ s.clients ∧
    ∃ c, s.sys.holder fd = some c ∧ SelfRegistered e s.handled c K
  newcomers : ∀ j ∈ s.sys.jobs, j.kind = .newClient → j.fd ∉ s.clients
  held : ∀ fd ∈ s.sys.svc.mPendingClose, fd ∈ s.sys.svc.mClients
  closing : ∀ fd ∈ s.sys.svc.mPendingClose, fd ∈ s.orphans ∨
    fd ∉ s.clients ∧ ∀ j ∈ s.sys.jobs, j.fd ≠ fd
  orphans : ∀ fd ∈ s.orphans, fd ∈ s.clients ∧ fd ∈ s.sys.svc.mPendingClose

variable {s : Server}

theorem ServerInv.init (e : Endian) : ServerInv e Server.init :=
  ⟨Inv.init, trivial, by simp [Server.init], by simp [Server.init, State.init],
    by simp [Server.init], by simp [Server.init, State.init],
    by simp [Server.init, State.init], by simp [Server.init, State.init], by simp [Server.init]⟩

/-- A client's descriptor is one of the service. -/
theorem ServerInv.mClients (h : ServerInv e s) {fd : Int} (hfd : fd ∈ s.clients) :
    fd ∈ s.sys.svc.mClients := by
  obtain ⟨c, -, hh⟩ := holderAdmitted_iff.mp (h.clients fd hfd)
  exact (h.sys.clients fd).mpr (by rw [hh]; simp)

/-- The server's place, and nothing else, may change. -/
theorem ServerInv.toPhase (h : ServerInv e s) {phase : Phase}
    (hphase : phase.Ok s.sys.svc.pending) :
    ServerInv e { s with sys := { s.sys with phase := phase } } :=
  ⟨h.sys.congr rfl rfl rfl rfl rfl, hphase, h.clients, h.pending, h.tree, h.newcomers, h.held,
    h.closing, h.orphans⟩

/-- A descriptor that no other than its own job gave to `pend_close` is closed without a trace. -/
theorem ServerInv.processClosed (h : ServerInv e s)
    (htidy : ∀ fd ∈ s.sys.svc.mPendingClose, fd ∉ s.orphans) :
    ServerInv e { s with
      sys := { s.sys with
        svc := s.sys.svc.processClosed
        phase := .closed
        holder := fun fd => if fd ∈ s.sys.svc.mPendingClose then none else s.sys.holder fd }
      orphans := s.orphans \ s.sys.svc.mPendingClose } := by
  have hgone : ∀ fd ∈ s.sys.svc.mPendingClose, fd ∉ s.clients ∧ ∀ j ∈ s.sys.jobs, j.fd ≠ fd :=
    fun fd hfd => (h.closing fd hfd).resolve_left (htidy fd hfd)
  have hstay : ∀ fd ∈ s.clients, fd ∉ s.sys.svc.mPendingClose :=
    fun fd hfd hpc => (hgone fd hpc).1 hfd
  constructor
  · exact h.sys.processClosed fun _ fd hfd => (hgone fd hfd).2
  · trivial
  · intro fd hfd
    obtain ⟨c, hc, hh⟩ := holderAdmitted_iff.mp (h.clients fd hfd)
    exact holderAdmitted_iff.mpr ⟨c, hc, by simp only [if_neg (hstay fd hfd), hh]⟩
  · intro fd hfd
    simp only [StdSocketService.pending_processClosed, Finset.mem_sdiff] at hfd
    exact h.pending fd hfd.1
  · intro fd K hin
    obtain ⟨hfd, c, hh, hself⟩ := h.tree fd K hin
    exact ⟨hfd, c, by simp only [if_neg (hstay fd hfd), hh], hself⟩
  · exact h.newcomers
  · intro fd hfd
    simp only [StdSocketService.mPendingClose_processClosed] at hfd
    simp at hfd
  · intro fd hfd
    simp only [StdSocketService.mPendingClose_processClosed] at hfd
    simp at hfd
  · intro fd hfd
    obtain ⟨hin, hnot⟩ := Finset.mem_sdiff.mp hfd
    exact absurd (h.orphans fd hin).2 hnot

/-- A new connection is not known yet. -/
theorem ServerInv.accept (h : ServerInv e s) {fd : Int} (hfree : s.sys.holder fd = none)
    {rset : Finset Int} (hat : s.sys.phase = .sockets rset) (queued : Bool) :
    ServerInv e { s with
      sys := ((s.sys.addClient fd).toServe rset).queueJob .newClient fd queued } := by
  obtain ⟨hnc, hnp, hnj⟩ := h.sys.of_free hfree
  have hnotin : fd ∉ s.clients := fun hin => hnc (h.mClients hin)
  have hnpc : fd ∉ s.sys.svc.mPendingClose := fun hin => hnc (h.held fd hin)
  obtain ⟨hinv, hphase⟩ := Inv.steps ⟨h.sys, h.phase⟩
    (quiet_of_ne (l := .accept (some fd) queued) (by simp)) (.accept hat hfree)
  have hother : ∀ fd' ∈ s.clients, fd' ≠ fd := fun fd' hin heq => hnotin (heq ▸ hin)
  have hadm : ∀ fd' ∈ s.clients,
      ((s.sys.addClient fd).toServe rset).holderAdmitted fd' = true := by
    intro fd' hin
    obtain ⟨c, hc, hh⟩ := holderAdmitted_iff.mp (h.clients fd' hin)
    refine holderAdmitted_iff.mpr ⟨c, hc, ?_⟩
    simp only [State.toServe, State.addClient, if_neg (hother fd' hin), hh]
  have htree : ∀ fd' K, fd' ∈ s.tree.head.clientsAt K → fd' ∈ s.clients ∧
      ∃ c, ((s.sys.addClient fd).toServe rset).holder fd' = some c ∧
        SelfRegistered e s.handled c K := by
    intro fd' K hin
    obtain ⟨hcl, c, hh, hself⟩ := h.tree fd' K hin
    refine ⟨hcl, c, ?_, hself⟩
    simp only [State.toServe, State.addClient, if_neg (hother fd' hcl), hh]
  cases queued with
  | true =>
    refine ⟨hinv, hphase, hadm, h.pending, htree, ?_, ?_, ?_, h.orphans⟩
    · intro j hj hk
      rcases List.mem_append.mp hj with hold | hnew
      · exact h.newcomers j hold hk
      · obtain rfl := List.mem_singleton.mp hnew
        exact hnotin
    · exact fun fd' hfd' => Finset.mem_insert_of_mem (h.held fd' hfd')
    · intro fd' hfd'
      refine (h.closing fd' hfd').imp_right fun hcl => ⟨hcl.1, fun j hj => ?_⟩
      rcases List.mem_append.mp hj with hold | hnew
      · exact hcl.2 j hold
      · obtain rfl := List.mem_singleton.mp hnew
        rintro rfl
        exact hnpc hfd'
  | false =>
    refine ⟨hinv, hphase, hadm, h.pending, htree, h.newcomers, ?_, ?_, ?_⟩
    · intro fd' hfd'
      rcases Finset.mem_insert.mp hfd' with rfl | hold
      · exact Finset.mem_insert_self ..
      · exact Finset.mem_insert_of_mem (h.held fd' hold)
    · intro fd' hfd'
      rcases Finset.mem_insert.mp hfd' with rfl | hold
      · exact .inr ⟨hnotin, hnj⟩
      · exact h.closing fd' hold
    · exact fun fd' hfd' => (h.orphans fd' hfd').imp_right Finset.mem_insert_of_mem

/-- A client that has data gets a job, or is an orphan. -/
theorem ServerInv.serve (h : ServerInv e s) {rset : Finset Int} {fd : Int} {todo : List Int}
    (hat : s.sys.phase = .serve rset (fd :: todo)) (hmem : fd ∈ rset) (queued : Bool) :
    ServerInv e { s with
      sys := { s.sys with svc := s.sys.svc.busy fd, phase := .serve rset todo }.queueJob .data fd
        queued
      orphans := if queued then s.orphans else insert fd s.orphans } := by
  obtain ⟨hinv, hphase⟩ := Inv.steps ⟨h.sys, h.phase⟩
    (quiet_of_ne (l := .serve queued) (by simp)) (.serve hat hmem)
  have hok := h.phase
  rw [hat] at hok
  have hpend := hok.2 fd (by simp) hmem
  have hclient := h.pending fd hpend
  have hpend' : ∀ fd' ∈ s.sys.svc.pending.erase fd, fd' ∈ s.clients :=
    fun fd' hfd' => h.pending fd' (Finset.mem_of_mem_erase hfd')
  cases queued with
  | true =>
    refine ⟨hinv, hphase, h.clients, hpend', h.tree, ?_, h.held, ?_, h.orphans⟩
    · intro j hj hk
      rcases List.mem_append.mp hj with hold | hnew
      · exact h.newcomers j hold hk
      · obtain rfl := List.mem_singleton.mp hnew
        cases hk
    · intro fd' hfd'
      refine (h.closing fd' hfd').imp_right fun hcl => ⟨hcl.1, fun j hj => ?_⟩
      rcases List.mem_append.mp hj with hold | hnew
      · exact hcl.2 j hold
      · obtain rfl := List.mem_singleton.mp hnew
        rintro rfl
        exact hcl.1 hclient
  | false =>
    refine ⟨hinv, hphase, h.clients, hpend', h.tree, h.newcomers, ?_, ?_, ?_⟩
    · intro fd' hfd'
      rcases Finset.mem_insert.mp hfd' with rfl | hold
      · exact h.mClients hclient
      · exact h.held fd' hold
    · intro fd' hfd'
      rcases Finset.mem_insert.mp hfd' with rfl | hold
      · exact .inl (Finset.mem_insert_self ..)
      · exact (h.closing fd' hold).imp_left Finset.mem_insert_of_mem
    · intro fd' hfd'
      rcases Finset.mem_insert.mp hfd' with rfl | hold
      · exact ⟨hclient, Finset.mem_insert_self ..⟩
      · exact (h.orphans fd' hold).imp_right Finset.mem_insert_of_mem

theorem mPendingClose_finish_true (s : State) (j : Job) :
    (s.finish j true).svc.mPendingClose = s.svc.mPendingClose := by
  simp only [State.finish, if_true, StdSocketService.returned]
  split_ifs <;> rfl

/-- A callback for a new client finds nothing of the descriptor and admits it. -/
theorem ServerInv.admit (h : ServerInv e s) {j : Job} (hj : j ∈ s.sys.jobs)
    (hk : j.kind = .newClient) :
    ServerInv e ({ s with clients := insert j.fd s.clients }.finish j true) := by
  have hnew := h.newcomers j hj hk
  have hjc := (h.sys.holds j hj).1
  constructor
  · exact h.sys.finish hj true
  · exact h.phase.mono (pending_finish s.sys j true)
  · intro fd hfd
    rcases Finset.mem_insert.mp hfd with rfl | hold
    · exact h.sys.holderAdmitted_finish hj
    · exact holderAdmitted_mono j true (h.clients fd hold)
  · intro fd hfd
    rcases mem_pending_finish hfd with hold | ⟨-, rfl⟩
    · exact Finset.mem_insert_of_mem (h.pending fd hold)
    · exact Finset.mem_insert_self ..
  · intro fd K hin
    obtain ⟨hfd, hself⟩ := h.tree fd K hin
    exact ⟨Finset.mem_insert_of_mem hfd, hself⟩
  · intro j' hj' hk' hin
    obtain ⟨hmem, hne⟩ := h.sys.of_mem_erase hj hj'
    exact (Finset.mem_insert.mp hin).elim hne (h.newcomers j' hmem hk')
  · intro fd hfd
    rw [Server.finish, mClients_finish]
    exact h.held fd (by rwa [Server.finish, mPendingClose_finish_true] at hfd)
  · intro fd hfd
    rw [Server.finish, mPendingClose_finish_true] at hfd
    refine (h.closing fd hfd).imp_right fun hcl => ⟨fun hin => ?_, fun j' hj' => ?_⟩
    · rcases Finset.mem_insert.mp hin with rfl | hold
      · exact hcl.2 j hj rfl
      · exact hcl.1 hold
    · exact hcl.2 j' (h.sys.of_mem_erase hj hj').1
  · intro fd hfd
    rw [Server.finish, mPendingClose_finish_true]
    exact (h.orphans fd hfd).imp_left Finset.mem_insert_of_mem

/-- A client's descriptor comes back from its job. -/
theorem ServerInv.returned (h : ServerInv e s) {j : Job} (hj : j ∈ s.sys.jobs)
    (hclient : j.fd ∈ s.clients) : ServerInv e (s.finish j true) := by
  constructor
  · exact h.sys.finish hj true
  · exact h.phase.mono (pending_finish s.sys j true)
  · exact fun fd hfd => holderAdmitted_mono j true (h.clients fd hfd)
  · intro fd hfd
    rcases mem_pending_finish hfd with hold | ⟨-, rfl⟩
    · exact h.pending fd hold
    · exact hclient
  · exact h.tree
  · exact fun j' hj' => h.newcomers j' (h.sys.of_mem_erase hj hj').1
  · intro fd hfd
    rw [Server.finish, mClients_finish]
    exact h.held fd (by rwa [Server.finish, mPendingClose_finish_true] at hfd)
  · intro fd hfd
    rw [Server.finish, mPendingClose_finish_true] at hfd
    exact (h.closing fd hfd).imp_right fun hcl =>
      ⟨hcl.1, fun j' hj' => hcl.2 j' (h.sys.of_mem_erase hj hj').1⟩
  · intro fd hfd
    rw [Server.finish, mPendingClose_finish_true]
    exact h.orphans fd hfd

/-- A job for data that fails removes its client before it has the descriptor closed. -/
theorem ServerInv.refused (h : ServerInv e s) {j : Job} (hj : j ∈ s.sys.jobs) :
    ServerInv e { (s.closeClientConnection j.fd).finish j false with
      orphans := s.orphans.erase j.fd } := by
  obtain ⟨hjc, hjh⟩ := h.sys.holds j hj
  have hpend : ∀ fd ∈ s.sys.svc.pending, fd ≠ j.fd :=
    fun fd hfd heq => (h.sys.pending fd hfd).2.2 j hj heq.symm
  have herase : ∀ fd ∈ s.clients.erase j.fd, fd ∈ s.clients := fun fd => Finset.mem_of_mem_erase
  constructor
  · exact h.sys.finish hj false
  · exact h.phase
  · exact fun fd hfd => holderAdmitted_mono j false (h.clients fd (herase fd hfd))
  · exact fun fd hfd => Finset.mem_erase.mpr ⟨hpend fd hfd, h.pending fd hfd⟩
  · intro fd K hin
    have hin' : fd ∈ (s.tree.head.removeFromTree j.fd).clientsAt K := hin
    rw [StdNode.clientsAt_removeFromTree, Finset.mem_erase] at hin'
    obtain ⟨hfd, hself⟩ := h.tree fd K hin'.2
    exact ⟨Finset.mem_erase.mpr ⟨hin'.1, hfd⟩, hself⟩
  · exact fun j' hj' hk hin => h.newcomers j' (h.sys.of_mem_erase hj hj').1 hk (herase _ hin)
  · intro fd hfd
    rcases Finset.mem_insert.mp hfd with rfl | hold
    · exact hjc
    · exact h.held fd hold
  · intro fd hfd
    by_cases hown : fd = j.fd
    · refine .inr ⟨fun hin => (Finset.mem_erase.mp hin).1 hown, fun j' hj' => ?_⟩
      rw [hown]
      exact (h.sys.of_mem_erase hj hj').2
    · rcases Finset.mem_insert.mp hfd with heq | hold
      · exact absurd heq hown
      · refine (h.closing fd hold).imp (fun ho => Finset.mem_erase.mpr ⟨hown, ho⟩) fun hcl => ?_
        exact ⟨fun hin => hcl.1 (herase fd hin),
          fun j' hj' => hcl.2 j' (h.sys.of_mem_erase hj hj').1⟩
  · intro fd hfd
    obtain ⟨hne, ho⟩ := Finset.mem_erase.mp hfd
    obtain ⟨hclient, hpc⟩ := h.orphans fd ho
    exact ⟨Finset.mem_erase.mpr ⟨hne, hclient⟩, Finset.mem_insert_of_mem hpc⟩

/-- Handling a frame registers the connection for what it asks for, and makes orphans of the
descriptors to which sends fail. -/
theorem ServerInv.handled (h : ServerInv e s) {j : Job}
    (hclient : j.fd ∈ s.clients) {buff : Mem} {failing : Finset Int}
    {eff : Effect StdSocketService}
    (hrun : handleFrame e j.fd (sendOrClose failing) buff.length buff s.tree s.sys.svc = .ok eff) :
    ServerInv e { s with
      sys := { s.sys with svc := eff.world }
      tree := eff.tree
      handled := s.handled ++ [(s.sys.holder j.fd, buff)]
      orphans := s.orphans ∪ Server.failedSends eff } := by
  obtain ⟨htree, hworld⟩ := handleFrame_cases hrun
  have hsvc : eff.world.mClients = s.sys.svc.mClients ∧ eff.world.pending = s.sys.svc.pending ∧
      (∀ fd, fd ∈ eff.world.mPendingClose ↔
        fd ∈ s.sys.svc.mPendingClose ∨ fd ∈ Server.failedSends eff) ∧
      ∀ fd ∈ Server.failedSends eff, fd ∈ s.clients := by
    rcases hworld with ⟨hnone, hsame⟩ | ⟨msg, log, len, hsome, hpub⟩
    · have hempty : Server.failedSends eff = ∅ := by rw [Server.failedSends, hnone]
      rw [hsame, hempty]
      exact ⟨rfl, rfl, by simp, by simp⟩
    · obtain ⟨hc, hp, hm⟩ := publish_sendOrClose hpub
      have hfailed : ∀ fd, fd ∈ Server.failedSends eff ↔ (fd, false) ∈ log := by
        intro fd
        rw [Server.failedSends, hsome]
        simp
      refine ⟨hc, hp, fun fd => by rw [hm, hfailed], fun fd hfd => ?_⟩
      obtain ⟨K, -, -, -, hin⟩ := publish_fds hpub fd
        (List.mem_map.mpr ⟨_, (hfailed fd).mp hfd, rfl⟩)
      exact (h.tree fd K hin).1
  obtain ⟨hc, hp, hm, hknown⟩ := hsvc
  have hmono : ∀ c K, SelfRegistered e s.handled c K →
      SelfRegistered e (s.handled ++ [(s.sys.holder j.fd, buff)]) c K := by
    rintro c K ⟨mem, hmem, hreq⟩
    exact ⟨mem, List.mem_append_left _ hmem, hreq⟩
  constructor
  · exact h.sys.congr hc hp rfl rfl rfl
  · simp only [hp]
    exact h.phase
  · exact h.clients
  · simp only [hp]
    exact h.pending
  · intro fd K hin
    rcases htree fd K hin with hold | ⟨rfl, hreq⟩
    · obtain ⟨hfd, c, hh, hself⟩ := h.tree fd K hold
      exact ⟨hfd, c, hh, hmono c K hself⟩
    · obtain ⟨c, -, hh⟩ := holderAdmitted_iff.mp (h.clients _ hclient)
      exact ⟨hclient, c, hh, buff, by simp [hh], hreq⟩
  · exact h.newcomers
  · intro fd hfd
    simp only [hc]
    rcases (hm fd).mp hfd with hold | hnew
    · exact h.held fd hold
    · exact h.mClients (hknown fd hnew)
  · intro fd hfd
    rcases (hm fd).mp hfd with hold | hnew
    · exact (h.closing fd hold).imp_left (Finset.mem_union_left _)
    · exact .inl (Finset.mem_union_right _ hnew)
  · intro fd hfd
    rcases Finset.mem_union.mp hfd with hold | hnew
    · obtain ⟨hcl, hpc⟩ := h.orphans fd hold
      exact ⟨hcl, (hm fd).mpr (.inl hpc)⟩
    · exact ⟨hknown fd hnew, (hm fd).mpr (.inr hnew)⟩

/-! ## Steps and runs -/

/-- The server closes no descriptor that only a failed send, or a job that could not be queued, has
given to `pend_close`. -/
def Tidy (s : Server) (l : ServerLabel) : Prop :=
  l = .service .processClosed → ∀ fd ∈ s.sys.svc.mPendingClose, fd ∉ s.orphans

instance (s : Server) (l : ServerLabel) : Decidable (Tidy s l) :=
  inferInstanceAs (Decidable (l = .service .processClosed → _))

/-- A step of the server thread. -/
theorem ServerInv.service (h : ServerInv e s) {l : Label} (htidy : Tidy s (.service l))
    {sys : State} (hstep : Steps l s.sys sys) (hfinish : ∀ j ok, l ≠ .finish j ok)
    (hclose : ∀ fd, l ≠ .clientClose fd) :
    ServerInv e { s with sys := sys, orphans := s.orphansAfter l } := by
  have hsort : ∀ rset : Finset Int, s.sys.phase = .sockets rset →
      (Phase.serve rset (ascending s.sys.svc.mClients)).Ok s.sys.svc.pending := by
    intro rset hat
    have hok := h.phase
    rw [hat] at hok
    exact ⟨ascending_nodup _, fun fd _ hr => hok hr⟩
  cases hstep with
  | processClosed _ => exact h.processClosed (htidy rfl)
  | select hat hsub => exact h.toPhase hsub
  | @selectNone _ bad hat hsub hfree =>
    -- what is pending is open
    obtain rfl : bad = ∅ := by
      refine Finset.eq_empty_of_forall_notMem fun fd hfd => ?_
      obtain ⟨hc, -, -⟩ := h.sys.pending fd (hsub hfd)
      exact (h.sys.clients fd).mp hc (hfree fd hfd)
    rw [ascending_empty]
    exact h.toPhase trivial
  | @acceptNone _ rset queued hat =>
    have horphans : s.orphansAfter (.accept none queued) = s.orphans := rfl
    rw [horphans]
    exact h.toPhase (hsort rset hat)
  | @accept _ rset fd queued hat hfree => exact h.accept hfree hat queued
  | @serve _ rset fd todo queued hat hmem =>
    have horphans : s.orphansAfter (.serve queued) =
        if queued then s.orphans else insert fd s.orphans := by
      cases queued with
      | true => rfl
      | false => simp only [Server.orphansAfter, hat, if_pos hmem, Bool.false_eq_true, if_false]
    rw [horphans]
    exact h.serve hat hmem queued
  | @skip _ rset fd todo queued hat hnot =>
    have horphans : s.orphansAfter (.serve queued) = s.orphans := by
      cases queued with
      | true => rfl
      | false => simp only [Server.orphansAfter, hat, if_neg hnot]
    rw [horphans]
    have hok := h.phase
    rw [hat] at hok
    exact h.toPhase ⟨hok.1.of_cons, fun fd' hfd' => hok.2 fd' (by simp [hfd'])⟩
  | served hat => exact h.toPhase trivial
  | finish _ => exact absurd rfl (hfinish _ _)
  | clientClose => exact absurd rfl (hclose _)

/-- A step of the server thread is one of the socket service. -/
theorem step_service {inline : Bool} {l : Label} {s' : Server}
    (hrun : s.step e inline (.service l) = some s') :
    (∀ j ok, l ≠ .finish j ok) ∧ (∀ fd, l ≠ .clientClose fd) ∧
      ∃ sys, Service.step inline l s.sys = some sys ∧
        s' = { s with sys := sys, orphans := s.orphansAfter l } := by
  unfold Server.step at hrun
  split at hrun
  · cases hrun
  · cases hrun
  · next l' hfinish hclose heq =>
    obtain rfl := ServerLabel.service.inj heq
    obtain ⟨sys, hsys, rfl⟩ := Option.map_eq_some_iff.mp hrun
    exact ⟨hfinish, hclose, sys, hsys, rfl⟩
  · next heq => cases heq
  · next heq => cases heq

/-- Every tidy step keeps the invariant. -/
theorem ServerInv.step (h : ServerInv e s) {inline : Bool} {l : ServerLabel} {s' : Server}
    (htidy : Tidy s l) (hrun : s.step e inline l = some s') : ServerInv e s' := by
  cases l with
  | service l =>
    obtain ⟨hfinish, hclose, sys, hsys, rfl⟩ := step_service hrun
    exact h.service htidy (step_steps hsys) hfinish hclose
  | newClient j =>
    rw [Server.step] at hrun
    split_ifs at hrun with hj
    rw [Server.eventNewClient, if_neg (h.newcomers j hj.1 hj.2)] at hrun
    exact Option.some.inj hrun ▸ h.admit hj.1 hj.2
  | data j frame failing =>
    rw [Server.step] at hrun
    split_ifs at hrun with hj
    obtain ⟨⟨ret, s₁⟩, hdata, rfl⟩ := Option.map_eq_some_iff.mp hrun
    have hs₁ : ServerInv e s₁ ∧ j ∈ s₁.sys.jobs ∧ (ret = true → j.fd ∈ s₁.clients) := by
      unfold Server.eventSomeData at hdata
      by_cases hclient : j.fd ∉ s.clients
      · rw [if_pos hclient] at hdata
        obtain ⟨rfl, rfl⟩ := Prod.mk.inj (Option.some.inj hdata)
        exact ⟨h, hj.1, nofun⟩
      rw [if_neg hclient] at hdata
      cases frame with
      | none =>
        obtain ⟨rfl, rfl⟩ := Prod.mk.inj (Option.some.inj hdata)
        exact ⟨h, hj.1, nofun⟩
      | some buff =>
        dsimp only at hdata
        split at hdata
        · cases hdata
        · next eff hframe =>
          obtain ⟨-, rfl⟩ := Prod.mk.inj (Option.some.inj hdata)
          exact ⟨h.handled (not_not.mp hclient) hframe, hj.1, fun _ => not_not.mp hclient⟩
    obtain ⟨hinv, hjob, hclient⟩ := hs₁
    cases ret with
    | true => exact hinv.returned hjob (hclient rfl)
    | false => exact hinv.refused hjob

/-- No table has a trace of a closed connection: clients and registrations belong to open and
admitted connections, a registration to one that asked for it, a message is tried only on such
connections, and a new connection is not known. -/
structure NoTrace (e : Endian) (s : Server) : Prop where
  clients : ∀ fd ∈ s.clients, ∃ c ∈ s.sys.admitted, s.sys.holder fd = some c
  registered : ∀ fd K, fd ∈ s.tree.head.clientsAt K →
    ∃ c ∈ s.sys.admitted, s.sys.holder fd = some c ∧ SelfRegistered e s.handled c K
  sends : ∀ (send : Send StdSocketService) (svc svc' : StdSocketService)
    (list : Nat → Exec UInt32) (len : Nat) (log : List (Int × Bool)),
    s.tree.publish send svc list len = .ok (log, svc') → ∀ fd ∈ log.map Prod.fst,
      ∃ c ∈ s.sys.admitted, s.sys.holder fd = some c ∧ ∃ K, K ≠ [] ∧ K.length ≤ len ∧
        StdNode.Lists list 0 K ∧ SelfRegistered e s.handled c K
  newcomers : ∀ j ∈ s.sys.jobs, j.kind = .newClient → j.fd ∉ s.clients

theorem ServerInv.noTrace (h : ServerInv e s) : NoTrace e s := by
  have hregistered : ∀ fd K, fd ∈ s.tree.head.clientsAt K →
      ∃ c ∈ s.sys.admitted, s.sys.holder fd = some c ∧ SelfRegistered e s.handled c K := by
    intro fd K hin
    obtain ⟨hclient, c, hh, hself⟩ := h.tree fd K hin
    obtain ⟨c', hc', hh'⟩ := holderAdmitted_iff.mp (h.clients fd hclient)
    obtain rfl := Option.some.inj (hh.symm.trans hh')
    exact ⟨c, hc', hh, hself⟩
  refine ⟨fun fd hfd => holderAdmitted_iff.mp (h.clients fd hfd), hregistered, ?_, h.newcomers⟩
  intro send svc svc' list len log hpub fd hfd
  obtain ⟨K, hne, hlen, hlists, hin⟩ := publish_fds hpub fd hfd
  obtain ⟨c, hc, hh, hself⟩ := hregistered fd K hin
  exact ⟨c, hc, hh, K, hne, hlen, hlists, hself⟩

/-- In every run in which the server closes a descriptor only after its own job failed, no table has
a trace of a closed connection; and when it does close another, that one is left in the tables. -/
theorem no_trace_left (e : Endian) {inline : Bool} {s : Server}
    (h : Reached (Server.step e inline) Tidy Server.init s) : NoTrace e s ∧
      ∀ s', s.step e inline (.service .processClosed) = some s' →
        ¬ Tidy s (.service .processClosed) → ¬ NoTrace e s' := by
  have hinv : ServerInv e s := h.invariant (ServerInv.init e) fun hs htidy hrun =>
    hs.step htidy hrun
  refine ⟨hinv.noTrace, fun s' hrun huntidy htrace => ?_⟩
  simp only [Tidy, true_implies, not_forall, not_not] at huntidy
  obtain ⟨fd, hfd, horphan⟩ := huntidy
  obtain ⟨-, -, sys, hsys, rfl⟩ := step_service hrun
  cases step_steps hsys with
  | processClosed hat =>
    obtain ⟨c, -, hh⟩ := htrace.clients fd (hinv.orphans fd horphan).1
    dsimp only at hh
    rw [if_pos hfd] at hh
    cases hh

/-- A connection with descriptor 5 registers for the key of the one element 5 and closes its end, so
that its next job fails and the server closes 5. -/
def hangUpRun : List ServerLabel :=
  [.service .processClosed, .service (.select ∅), .service (.accept (some 5) true),
    .service (.serve true), .service .served, .newClient ⟨.newClient, 5, some 0, false⟩,
    .service .processClosed, .service (.select {5}), .service (.accept none true),
    .service (.serve true), .service .served,
    .data ⟨.data, 5, some 0, true⟩ (some [0, 0, 0, 0, 1, 0, 0, 0, 5, 0, 0, 0]) ∅,
    .service .processClosed, .service (.select {5}), .service (.accept none true),
    .service (.serve true), .service .served, .data ⟨.data, 5, some 0, true⟩ none ∅,
    .service .processClosed]

/-- Connection 0 was admitted and is closed, and its registration is gone. -/
theorem no_trace_left_sample : ∃ s : Server,
    Reached (Server.step .little false) Tidy Server.init s ∧ 0 ∈ s.sys.admitted ∧
      s.sys.holder 5 = none ∧ s.tree.head.clientsAt [5] = ∅ ∧ NoTrace .little s := by
  have hend : (runSteps (Server.step .little false) hangUpRun Server.init).map
      (fun s => (s.sys.admitted, s.sys.holder 5, s.tree.head.clientsAt [5])) =
        some ({0}, none, ∅) := by decide +kernel
  obtain ⟨s, hrun, heq⟩ := Option.map_eq_some_iff.mp hend
  obtain ⟨hadmitted, heq⟩ := Prod.mk.inj heq
  obtain ⟨hholder, htree⟩ := Prod.mk.inj heq
  have hreached := Reached.runSteps_of_allMeet Tidy hangUpRun .init (by decide +kernel) hrun
  refine ⟨s, hreached, ?_, hholder, htree, (no_trace_left .little hreached).1⟩
  rw [hadmitted]
  exact Finset.mem_singleton_self 0

/-- A connection with descriptor 5 registers for the key of the one element 5 and publishes a message
for this key, which it does not receive in time, so that 5 is closed. -/
def failedSendRun : List ServerLabel :=
  [.service .processClosed, .service (.select ∅), .service (.accept (some 5) true),
    .service (.serve true), .service .served, .newClient ⟨.newClient, 5, some 0, false⟩,
    .service .processClosed, .service (.select {5}), .service (.accept none true),
    .service (.serve true), .service .served,
    .data ⟨.data, 5, some 0, true⟩ (some [0, 0, 0, 0, 1, 0, 0, 0, 5, 0, 0, 0]) ∅,
    .service .processClosed, .service (.select {5}), .service (.accept none true),
    .service (.serve true), .service .served,
    .data ⟨.data, 5, some 0, true⟩
      (some ([2, 0, 0, 0, 1, 0, 0, 0, 5, 0, 0, 0] ++ List.replicate 64 0)) {5},
    .service .processClosed]

-- The next connection that is given the number 5 is refused.
example : (runSteps (Server.step .little false) (failedSendRun ++ [.service (.select ∅),
    .service (.accept (some 5) true), .newClient ⟨.newClient, 5, some 1, false⟩]) Server.init).map
      (fun s => (s.sys.holder 5, s.sys.admitted, s.sys.svc.mPendingClose)) =
        some (some 1, {0}, {5}) := by decide +kernel

/-- Descriptor 5 is closed and still in the table of clients and in the tree. -/
theorem closed_client_left : ∃ s, Reached (Server.step .little false) (fun _ _ => True)
    Server.init s ∧ s.sys.holder 5 = none ∧ 5 ∈ s.clients ∧ 5 ∈ s.tree.head.clientsAt [5] := by
  have hend : (runSteps (Server.step .little false) failedSendRun Server.init).map
      (fun s => (s.sys.holder 5, s.clients, s.tree.head.clientsAt [5])) =
        some (none, {5}, {5}) := by decide +kernel
  obtain ⟨s, hrun, heq⟩ := Option.map_eq_some_iff.mp hend
  obtain ⟨hholder, heq⟩ := Prod.mk.inj heq
  obtain ⟨hclients, htree⟩ := Prod.mk.inj heq
  refine ⟨s, Reached.init.runSteps failedSendRun (fun _ _ _ => trivial) hrun, hholder, ?_, ?_⟩
  · rw [hclients]
    decide
  · rw [htree]
    decide

end OpxCommonUtils.Event
