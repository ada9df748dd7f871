import Mathlib.Algebra.Order.BigOperators.Group.Finset
import OpxCommonUtils.Event.Proofs.Bus

/-!
# What the event service delivers

In every run of the server with its clients a client gets from every publisher what was published
for it, in the order in which it was published and each message once, whatever comes in between
(`bus_delivers`); and from every state the jobs of the server can go on until every request is
handled and every message is on the streams it is for (`bus_drains`).
-/

namespace OpxCommonUtils.Event

open Io PubSub

section
variable {e : Endian} {junk : List UInt8} {N : Nat} {s s' s'' : Bus}

/-- Where the service does what the broker does, so do its streams. -/
theorem Refines.delivers {S : Broker Int UInt32 Payload} (h : Refines e N s S) (hord : S.Ordered)
    {c : Int} {link : Link} (hlink : s.links c = some link) :
    ∃ b w, S.boxes c = some b ∧ link.received = b.received.map (delivered e) ∧
      Unfinished s.running c w ∧ link.down = frames e (b.inbox.map (postMessage e)) ++ w ∧
      ∀ p, Broker.byPublisher p (b.received ++ b.inbox) ++ S.onWay p c =
        Broker.byPublisher p b.posted := by
  obtain ⟨b, hb, hrel⟩ := (h.links c).of_some hlink
  obtain ⟨w, hw, hdown⟩ := hrel.down
  exact ⟨b, w, hb, hrel.received, hw, hdown, fun p => hord.order c b p hb⟩

/-- In every run what a client has received, what is on its stream and what is on its way to it
are, for each publisher, what was published for it, in order. Behind the frames there is only what
an unfinished send has put on the stream. -/
theorem bus_delivers (e : Endian) (junk : List UInt8) (N : Nat) (hN : 76 + N < 2 ^ 31)
    (ls : List BusLabel) (s : Bus) (hruns : Trail (Bus.Next e junk N) .init ls s) :
    ∃ S, Trail Broker.Step .init (ls.filterMap BusLabel.spec) S ∧
      ∀ c link, s.links c = some link → ∃ b w, S.boxes c = some b ∧
        link.received = b.received.map (delivered e) ∧
        Unfinished s.running c w ∧ link.down = frames e (b.inbox.map (postMessage e)) ++ w ∧
        ∀ p, Broker.byPublisher p (b.received ++ b.inbox) ++ S.onWay p c =
          Broker.byPublisher p b.posted := by
  obtain ⟨S, hspec, hrel⟩ := bus_is_broker e junk N hN ls s hruns
  exact ⟨S, hspec, fun c link hlink => hrel.delivers (.of_runs hspec) hlink⟩

theorem bus_delivers_sample : ∃ s S link b, Trail (Bus.Next .little [] 8) .init sampleBusRun s ∧
    Trail Broker.Step .init (sampleBusRun.filterMap BusLabel.spec) S ∧ s.links 1 = some link ∧
      S.boxes 1 = some b ∧ link.received = b.received.map (delivered .little) := by
  obtain ⟨s, hruns, hgot⟩ := sampleBusRun_runs
  obtain ⟨S, hspec, hall⟩ := bus_delivers .little [] 8 (by decide) sampleBusRun s hruns
  obtain ⟨link, hlink, -⟩ := Option.map_eq_some_iff.mp hgot
  obtain ⟨b, w, hb, hreceived, -⟩ := hall 1 link hlink
  exact ⟨s, S, link, b, hruns, hspec, hlink, hb, hreceived⟩

/-! ## Going on -/

/-- The jobs of the server. -/
def BusLabel.Job : BusLabel → Prop
  | .handle .. | .send .. | .write .. | .done _ => True
  | _ => False

/-- Jobs lead from one state to another. -/
def Continues (e : Endian) (junk : List UInt8) (N : Nat) (s s' : Bus) : Prop :=
  ∃ ls : List BusLabel, (∀ l ∈ ls, l.Job) ∧ Trail (Bus.Next e junk N) s ls s'

/-- The bytes on the stream to the server. -/
def Bus.pending (s : Bus) (fd : Int) : Option (List UInt8) := (s.links fd).map Link.up

/-- No send is unfinished. -/
def Bus.Settled (s : Bus) : Prop := ∀ p run, s.running.lookup p = some run → run.rest = []

/-- The service is in a state that the broker can be in. -/
def BusInv (e : Endian) (N : Nat) (s : Bus) : Prop := ∃ S, Refines e N s S ∧ S.Ordered

theorem Continues.refl (e : Endian) (junk : List UInt8) (N : Nat) (s : Bus) :
    Continues e junk N s s :=
  ⟨[], List.forall_mem_nil _, .nil⟩

theorem Continues.trans (h : Continues e junk N s s') (h' : Continues e junk N s' s'') :
    Continues e junk N s s'' := by
  obtain ⟨ls, hls, hruns⟩ := h
  obtain ⟨ls', hls', hruns'⟩ := h'
  exact ⟨ls ++ ls', List.forall_mem_append.mpr ⟨hls, hls'⟩, hruns.append hruns'⟩

theorem Continues.head {l : BusLabel} (hnext : s.Next e junk N l s') (hjob : l.Job)
    (h : Continues e junk N s' s'') : Continues e junk N s s'' :=
  .trans ⟨[l], List.forall_mem_singleton.mpr hjob, Trail.nil.snoc hnext⟩ h

theorem BusInv.step (hN : 76 + N < 2 ^ 31) (h : BusInv e N s) {l : BusLabel}
    (hnext : s.Next e junk N l s') : BusInv e N s' := by
  obtain ⟨S, hrel, hord⟩ := h
  obtain ⟨S', hS, hrel'⟩ := hrel.step hN hnext
  refine ⟨S', hrel', ?_⟩
  cases hspec : l.spec with
  | none =>
    rw [hspec] at hS
    obtain rfl : S' = S := hS
    exact hord
  | some m =>
    rw [hspec] at hS
    exact hord.step hS

theorem benign_nil (k : Nat) : Benign k [] := by
  cases k <;> trivial

/-- Only the publication of `p` changes. -/
theorem lookup_insert_eq (running : AList fun _ : Int => Publication) (p q : Int)
    (run : Publication) : (running.insert p run).lookup q =
      if q = p then some run else running.lookup q := by
  split_ifs with hq
  · rw [hq, AList.lookup_insert]
  · rw [AList.lookup_insert_ne hq]

/-- A client that is yet to be sent to is connected. -/
theorem BusInv.exists_link (h : BusInv e N s) {p c : Int} {run : Publication}
    (hrun : s.running.lookup p = some run) (hc : c ∈ run.todo) : ∃ link, s.links c = some link := by
  obtain ⟨S, hrel, hord⟩ := h
  obtain ⟨⟨m, left⟩, hS, hrunrel⟩ := (hrel.running p).of_some hrun
  have hbox := hord.awaited p m left c hS ((hrunrel.left c).mp hc)
  cases hlink : s.links c with
  | none =>
    rw [(hrel.links c).of_none hlink] at hbox
    cases hbox
  | some link => exact ⟨link, rfl⟩

variable (junk) in
/-- Where no send is unfinished the next send of a publication can begin. -/
theorem BusInv.send_enabled (hN : 76 + N < 2 ^ 31) (h : BusInv e N s) (hsettled : s.Settled)
    {p c : Int} {run : Publication} {todo : List Int} (hrun : s.running.lookup p = some run)
    (htodo : run.todo = c :: todo) :
    ∃ s' run', s.Next e junk N (.send p c []) s' ∧ run'.todo = c :: todo ∧ run'.rest ≠ [] ∧
      (∀ q, s'.running.lookup q = if q = p then some run' else s.running.lookup q) ∧
      s'.pending = s.pending := by
  obtain ⟨link, hlink⟩ := h.exists_link (c := c) hrun (by rw [htodo]; exact List.mem_cons_self)
  obtain ⟨S, hrel, -⟩ := h
  obtain ⟨⟨⟨key, data⟩, left⟩, -, hrunrel⟩ := (hrel.running p).of_some hrun
  have hrest := hsettled p run hrun
  have hmsg := hrunrel.msg
  have hsmall := hrunrel.small
  obtain ⟨msg, todo', written, rest⟩ := run
  dsimp only at hrest hmsg hsmall htodo
  subst hrest hmsg htodo
  obtain ⟨p', hsend, hbytes, -⟩ := send_steady (e := e) (p := ⟨[], []⟩) (List.forall_mem_nil _)
    (publish_frame_size hsmall hN)
  let run' : Publication := ⟨msgBytes e key data, c :: todo, [], p'.bytes⟩
  refine ⟨{ s with running := s.running.insert p run' }, run', ⟨?_, ?_⟩, rfl, ?_,
    fun q => lookup_insert_eq .., rfl⟩
  · have hfree : ∀ q r, s.running.lookup q = some r → r.sendingTo ≠ some c := fun q r hq hto =>
      (Publication.sendingTo_eq_some.mp hto).1 (hsettled q r hq)
    exact forall_entries_iff.mpr hfree
  · rw [Bus.step, Bus.send, hrun]
    dsimp only
    rw [if_neg (by rw [hlink]; simp), hsend]
  · change p'.bytes ≠ []
    rw [hbytes]
    exact frame_ne_nil _

variable (junk) in
/-- An unfinished send can be finished. -/
theorem BusInv.write_enabled (h : BusInv e N s) {p : Int} {run : Publication}
    (hrun : s.running.lookup p = some run) (hrest : run.rest ≠ []) :
    ∃ c todo s', run.todo = c :: todo ∧
      s.Next e junk N (.write p c run.rest.length true) s' ∧
      (∀ q, s'.running.lookup q =
        if q = p then some ⟨run.msg, todo, [], []⟩ else s.running.lookup q) ∧
      s'.pending = s.pending := by
  obtain ⟨c, todo, htodo⟩ : ∃ c todo, run.todo = c :: todo := by
    obtain ⟨S, hrel, -⟩ := h
    obtain ⟨m, -, hrunrel⟩ := (hrel.running p).of_some hrun
    exact List.exists_cons_of_ne_nil (hrunrel.sending hrest).1
  obtain ⟨link, hlink⟩ := h.exists_link (c := c) hrun (by rw [htodo]; exact List.mem_cons_self)
  obtain ⟨msg, todo', written, rest⟩ := run
  dsimp only at hrest htodo
  subst htodo
  let link' : Link := { link with down := link.down ++ rest.take rest.length }
  let run' : Publication := ⟨msg, todo, [], []⟩
  refine ⟨c, todo, { s.setLink c (some link') with running := s.running.insert p run' }, rfl,
    ⟨trivial, ?_⟩, fun q => lookup_insert_eq .., ?_⟩
  · rw [Bus.step, Bus.write, hrun, hlink]
    dsimp only
    rw [if_neg (by simp [hrest])]
    rfl
  · funext x
    change (Function.update s.links c _ x).map Link.up = (s.links x).map Link.up
    by_cases hx : x = c
    · subst hx
      rw [Function.update_self, hlink]
      rfl
    · rw [Function.update_of_ne hx]

variable (junk) in
/-- Where no publication runs the job for a client's data can begin. -/
theorem BusInv.handle_enabled (hN : 76 + N < 2 ^ 31) (h : BusInv e N s) {fd : Int} {link : Link}
    (hidle : s.running.keys = []) (hlink : s.links fd = some link) (hne : link.up ≠ []) :
    ∃ s' up, s.Next e junk N (.handle fd []) s' ∧
      s'.pending fd = some up ∧ up.length < link.up.length ∧
      ∀ x, x ≠ fd → s'.pending x = s.pending x := by
  obtain ⟨S, hrel, -⟩ := h
  obtain ⟨b, r, rest, eff, vector, p, -, -, -, hrun, hhandled, hshort, -⟩ :=
    hrel.next junk hN hlink (benign_nil _) hne
  have hready : ¬ (link.up = [] ∨ fd ∈ s.running) := by
    rintro (hnil | hin)
    · exact hne hnil
    · rw [AList.mem_keys, hidle] at hin
      cases hin
  have hpending : ∀ s' : Bus, s'.links = (s.setLink fd (some { link with
      up := p.bytes, vector := vector })).links →
      s'.pending fd = some p.bytes ∧ ∀ x, x ≠ fd → s'.pending x = s.pending x := by
    intro s' hlinks
    have hx : ∀ x, s'.pending x = (Function.update s.links fd (some { link with
        up := p.bytes, vector := vector }) x).map Link.up := by
      intro x
      rw [Bus.pending, hlinks]
      rfl
    refine ⟨?_, fun x hne => ?_⟩
    · rw [hx, Function.update_self]
      rfl
    · rw [hx, Function.update_of_ne hne]
      rfl
  have hstep : s.step e junk (.handle fd []) = s.handle e junk fd link [] := by
    rw [Bus.step, hlink]
    rfl
  have hallowed : (BusLabel.handle fd []).Allowed N s := benign_nil STD_MAX_EINTR
  rw [Bus.handle, if_neg hready, hrun] at hstep
  cases hhandled with
  | register _ | deregister _ =>
    dsimp only at hstep
    rw [if_neg (by decide), if_pos hidle] at hstep
    have hafter := hpending _ rfl
    exact ⟨_, _, ⟨hallowed, hstep⟩, hafter.1, hshort, hafter.2⟩
  | publish _ _ =>
    dsimp only at hstep
    rw [if_neg (by decide)] at hstep
    have hafter := hpending _ rfl
    exact ⟨_, _, ⟨hallowed, hstep⟩, hafter.1, hshort, hafter.2⟩

/-! ## Until nothing is left -/

variable (junk) in
/-- All unfinished sends can be finished. -/
theorem BusInv.settle (hN : 76 + N < 2 ^ 31) (ps : List Int) : ∀ {s : Bus}, BusInv e N s →
    (∀ p run, s.running.lookup p = some run → run.rest ≠ [] → p ∈ ps) →
    ∃ s', Continues e junk N s s' ∧ BusInv e N s' ∧ s'.Settled ∧ s'.pending = s.pending := by
  induction ps with
  | nil =>
    intro s h hps
    refine ⟨s, .refl .., h, fun p run hrun => ?_, rfl⟩
    by_contra hrest
    cases hps p run hrun hrest
  | cons p ps ih =>
    intro s h hps
    by_cases hp : ∃ run, s.running.lookup p = some run ∧ run.rest ≠ []
    · obtain ⟨run, hrun, hrest⟩ := hp
      obtain ⟨c, todo, s₁, -, hnext, hlookup, hpend₁⟩ := h.write_enabled junk hrun hrest
      obtain ⟨s', hcont, h', hsettled, hpend⟩ := ih (h.step hN hnext) fun q r hq hr => by
        rw [hlookup] at hq
        split_ifs at hq with hqp
        · obtain rfl := Option.some.inj hq
          exact absurd rfl hr
        · exact (List.mem_cons.mp (hps q r hq hr)).resolve_left hqp
      exact ⟨s', .head hnext trivial hcont, h', hsettled, hpend.trans hpend₁⟩
    · refine ih h fun q r hq hr => ?_
      rcases List.mem_cons.mp (hps q r hq hr) with rfl | hin
      · exact absurd ⟨r, hq, hr⟩ hp
      · exact hin

variable (junk) in
/-- A publication that runs can be finished. -/
theorem BusInv.finish (hN : 76 + N < 2 ^ 31) (p : Int) (todo : List Int) : ∀ {s : Bus}
    {run : Publication}, BusInv e N s → s.Settled → s.running.lookup p = some run →
    run.todo = todo →
    ∃ s', Continues e junk N s s' ∧ BusInv e N s' ∧ s'.Settled ∧
      (∀ q ∈ s'.running, q ∈ s.running ∧ q ≠ p) ∧ s'.pending = s.pending := by
  induction todo with
  | nil =>
    intro s run h hsettled hrun htodo
    have hnext : s.Next e junk N (.done p) { s with running := s.running.erase p } := by
      refine ⟨trivial, ?_⟩
      obtain ⟨msg, todo, written, rest⟩ := run
      obtain rfl : todo = [] := htodo
      rw [Bus.step, hrun]
    refine ⟨_, .head hnext trivial (.refl ..), h.step hN hnext, fun q r hq => ?_,
      fun q hq => ?_, rfl⟩
    · by_cases hqp : q = p
      · rw [hqp, AList.lookup_erase] at hq
        cases hq
      · rw [AList.lookup_erase_ne hqp] at hq
        exact hsettled q r hq
    · rw [AList.mem_erase] at hq
      exact hq.symm
  | cons c todo ih =>
    intro s run h hsettled hrun htodo
    -- the send begins and all its bytes are put on the stream
    obtain ⟨s₁, run₁, hnext₁, htodo₁, hrest₁, hlookup₁, hpend₁⟩ :=
      h.send_enabled junk hN hsettled hrun htodo
    have h₁ := h.step hN hnext₁
    have hrun₁ : s₁.running.lookup p = some run₁ := (hlookup₁ p).trans (if_pos rfl)
    obtain ⟨c', todo', s₂, htodo', hnext₂, hlookup₂, hpend₂⟩ :=
      h₁.write_enabled junk hrun₁ hrest₁
    obtain ⟨-, rfl⟩ := List.cons.inj (htodo₁.symm.trans htodo')
    have hlookup : ∀ q, s₂.running.lookup q =
        if q = p then some ⟨run₁.msg, todo, [], []⟩ else s.running.lookup q := by
      intro q
      rw [hlookup₂, hlookup₁]
      split_ifs <;> rfl
    obtain ⟨s', hcont, h', hsettled', hleft, hpend⟩ := ih (h₁.step hN hnext₂)
      (fun q r hq => by
        rw [hlookup] at hq
        split_ifs at hq with hqp
        · exact Option.some.inj hq ▸ rfl
        · exact hsettled q r hq)
      ((hlookup p).trans (if_pos rfl)) rfl
    refine ⟨s', .head hnext₁ trivial (.head hnext₂ trivial hcont), h', hsettled', fun q hq => ?_,
      hpend.trans (hpend₂.trans hpend₁)⟩
    obtain ⟨hin, hne⟩ := hleft q hq
    rw [← AList.lookup_isSome, hlookup, if_neg hne] at hin
    exact ⟨AList.lookup_isSome.mp hin, hne⟩

variable (junk) in
/-- So can all that run. -/
theorem BusInv.finish_all (hN : 76 + N < 2 ^ 31) (ps : List Int) : ∀ {s : Bus}, BusInv e N s →
    s.Settled → (∀ q ∈ s.running, q ∈ ps) →
    ∃ s', Continues e junk N s s' ∧ BusInv e N s' ∧ s'.running.keys = [] ∧
      s'.pending = s.pending := by
  induction ps with
  | nil =>
    intro s h _ hps
    refine ⟨s, .refl .., h, List.eq_nil_iff_forall_not_mem.mpr fun q hq => ?_, rfl⟩
    cases hps q hq
  | cons p ps ih =>
    intro s h hsettled hps
    cases hrun : s.running.lookup p with
    | none =>
      refine ih h hsettled fun q hq => ?_
      rcases List.mem_cons.mp (hps q hq) with rfl | hin
      · exact absurd hq (AList.lookup_eq_none.mp hrun)
      · exact hin
    | some run =>
      obtain ⟨s₁, hcont₁, h₁, hsettled₁, hleft, hpend₁⟩ :=
        h.finish junk hN p run.todo hsettled hrun rfl
      obtain ⟨s', hcont, h', hidle, hpend⟩ := ih h₁ hsettled₁ fun q hq =>
        (List.mem_cons.mp (hps q (hleft q hq).1)).resolve_left (hleft q hq).2
      exact ⟨s', hcont₁.trans hcont, h', hidle, hpend.trans hpend₁⟩

variable (junk) in
/-- Every publication can be finished, whatever sends have begun. -/
theorem BusInv.rest (hN : 76 + N < 2 ^ 31) (h : BusInv e N s) :
    ∃ s', Continues e junk N s s' ∧ BusInv e N s' ∧ s'.running.keys = [] ∧
      s'.pending = s.pending := by
  obtain ⟨s₁, hcont₁, h₁, hsettled, hpend₁⟩ := h.settle junk hN s.running.keys fun p run hrun _ =>
    AList.lookup_isSome.mp (Option.isSome_of_eq_some hrun)
  obtain ⟨s', hcont, h', hidle, hpend⟩ :=
    h₁.finish_all junk hN s₁.running.keys hsettled fun _ hq => hq
  exact ⟨s', hcont₁.trans hcont, h', hidle, hpend.trans hpend₁⟩

/-- The bytes on the streams of some connections. -/
def Bus.backlog (s : Bus) (F : Finset Int) : Nat :=
  ∑ fd ∈ F, ((s.pending fd).elim 0 List.length)

variable (junk) in
/-- Every request can be handled. -/
theorem BusInv.drain (hN : 76 + N < 2 ^ 31) (F : Finset Int) (n : Nat) : ∀ {s : Bus}, BusInv e N s →
    (∀ fd, fd ∉ F → s.pending fd = none) → s.backlog F = n →
    ∃ s', Continues e junk N s s' ∧ BusInv e N s' ∧ s'.running.keys = [] ∧
      ∀ fd, s'.pending fd = (s.pending fd).map fun _ => [] := by
  induction n using Nat.strong_induction_on with
  | _ n ih =>
    intro s h hF hn
    obtain ⟨s₁, hcont₁, h₁, hidle, hpend₁⟩ := h.rest junk hN
    by_cases hall : ∀ fd up, s₁.pending fd = some up → up = []
    · refine ⟨s₁, hcont₁, h₁, hidle, fun fd => ?_⟩
      rw [← hpend₁]
      cases hfd : s₁.pending fd with
      | none => rfl
      | some up =>
        obtain rfl := hall fd up hfd
        rfl
    · push Not at hall
      obtain ⟨fd, up, hfd, hne⟩ := hall
      obtain ⟨link, hlink, rfl⟩ := Option.map_eq_some_iff.mp hfd
      obtain ⟨s₂, up, hnext, hfd₂, hshort, hother⟩ :=
        h₁.handle_enabled junk hN hidle hlink hne
      have h₂ := h₁.step hN hnext
      have hin : fd ∈ F := by
        by_contra hnot
        rw [hpend₁, hF fd hnot] at hfd
        cases hfd
      have hless : s₂.backlog F < n := by
        rw [← hn, Bus.backlog, Bus.backlog, ← hpend₁]
        refine Finset.sum_lt_sum (fun x _ => ?_) ⟨fd, hin, ?_⟩
        · by_cases hx : x = fd
          · rw [hx, hfd₂, hfd]
            exact hshort.le
          · rw [hother x hx]
        · rw [hfd₂, hfd]
          exact hshort
      obtain ⟨s', hcont, h', hidle', hpend⟩ := ih _ hless h₂ (fun x hx => by
        rw [hother x (fun heq => hx (heq ▸ hin)), hpend₁, hF x hx]) rfl
      refine ⟨s', hcont₁.trans (.head hnext trivial hcont), h', hidle', fun x => ?_⟩
      rw [hpend, ← hpend₁]
      by_cases hx : x = fd
      · rw [hx, hfd₂, hfd]
        rfl
      · rw [hother x hx]

/-- From every state the jobs of the server can go on until every request is handled and nothing is
on its way. Then what a client has received and what is on its stream are, for each publisher, what
was published for it, in order. -/
theorem bus_drains (e : Endian) (junk : List UInt8) (N : Nat) (hN : 76 + N < 2 ^ 31)
    (ls : List BusLabel) (s : Bus) (hruns : Trail (Bus.Next e junk N) .init ls s) :
    ∃ ls' s' S, (∀ l ∈ ls', l.Job) ∧ Trail (Bus.Next e junk N) s ls' s' ∧
      (∀ fd, s'.pending fd = (s.pending fd).map fun _ => []) ∧ s'.running.keys = [] ∧
      Trail Broker.Step .init ((ls ++ ls').filterMap BusLabel.spec) S ∧
      ∀ c link, s'.links c = some link → ∃ b, S.boxes c = some b ∧
        link.received = b.received.map (delivered e) ∧
        link.down = frames e (b.inbox.map (postMessage e)) ∧
        ∀ p, Broker.byPublisher p (b.received ++ b.inbox) = Broker.byPublisher p b.posted := by
  obtain ⟨S, hspec, hrel⟩ := bus_is_broker e junk N hN ls s hruns
  obtain ⟨F, hF⟩ := Broker.finite_of_runs hspec
  have hnone : ∀ fd, fd ∉ F → s.pending fd = none := by
    intro fd hfd
    cases hlink : s.links fd with
    | none => rw [Bus.pending, hlink, Option.map_none]
    | some link =>
      obtain ⟨b, hb, -⟩ := (hrel.links fd).of_some hlink
      rw [hF fd hfd] at hb
      cases hb
  obtain ⟨s', ⟨ls', hjobs, hruns'⟩, -, hidle, hpend⟩ :=
    BusInv.drain junk hN F _ ⟨S, hrel, .of_runs hspec⟩ hnone rfl
  obtain ⟨S', hspec', hrel'⟩ := bus_is_broker e junk N hN (ls ++ ls') s' (hruns.append hruns')
  refine ⟨ls', s', S', hjobs, hruns', hpend, hidle, hspec', fun c link hlink => ?_⟩
  obtain ⟨b, w, hb, hgot, hw, hdown, horder⟩ := hrel'.delivers (.of_runs hspec') hlink
  obtain rfl : w = [] := by
    rcases hw with ⟨p, run, hrun, -, -⟩ | ⟨rfl, -⟩
    · have hin := AList.lookup_isSome.mp (Option.isSome_of_eq_some hrun)
      rw [AList.mem_keys, hidle] at hin
      cases hin
    · rfl
  refine ⟨b, hb, hgot, hdown.trans (List.append_nil _), fun p => ?_⟩
  have hnone := horder p
  rwa [Broker.onWay_none (hrel'.idle hidle p), List.append_nil] at hnone

/-- The jobs go on from where the first publication is half sent. -/
theorem bus_drains_sample : ∃ s ls s',
    Trail (Bus.Next .little [] 8) .init (sampleBusRun.take 11) s ∧ (∀ q ∈ [2, 3], q ∈ s.running) ∧
      (∀ l ∈ ls, l.Job) ∧ Trail (Bus.Next .little [] 8) s ls s' ∧ s'.running.keys = [] := by
  have heval : (runSteps (Bus.step .little []) (sampleBusRun.take 11) .init).map
      (fun s => s.running.keys) = some [3, 2] := by decide +kernel
  obtain ⟨s, hrun, hkeys⟩ := Option.map_eq_some_iff.mp heval
  have hruns : Trail (Bus.Next .little [] 8) .init (sampleBusRun.take 11) s :=
    trail_next (by decide +kernel) hrun
  obtain ⟨ls, s', -, hjobs, hruns', -, hidle, -⟩ := bus_drains .little [] 8 (by decide) _ s hruns
  refine ⟨s, ls, s', hruns, fun q hq => ?_, hjobs, hruns', hidle⟩
  rw [AList.mem_keys, hkeys]
  simpa [or_comm] using hq

end

end OpxCommonUtils.Event
