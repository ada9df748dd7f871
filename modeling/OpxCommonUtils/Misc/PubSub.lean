import Mathlib.Data.Finset.Insert
import Mathlib.Data.Set.Insert
import Mathlib.Logic.Function.Basic
import OpxCommonUtils.Misc.Simulation

/-!
# Publishing by topic

A broker between clients. A client leaves requests in a queue of its own; the broker takes the first
one of some client at a time. A message goes, one client after the other, to those registered for a
prefix of its topic; messages of several publishers may be on their way at once, and registrations
change while none is. In every run a client gets from every publisher what was published for it, in
the order in which it was published and each message once (`Broker.Ordered`).
-/

namespace OpxCommonUtils.PubSub

variable {ι κ μ : Type}

/-- What a client asks the broker for. -/
inductive Request (κ μ : Type) where
  | register (topic : List κ)
  | deregister (topic : List κ)
  | publish (topic : List κ) (payload : μ)

/-- A message and who published it. -/
structure Post (ι μ : Type) where
  publisher : ι
  payload : μ

/-- The connection of a client: the requests that are yet to be taken, the messages that were sent
and are yet to be received, and those that were received. `posted` are the messages that were
published for the client since it connected. -/
structure Box (ι κ μ : Type) where
  requests : List (Request κ μ)
  inbox : List (Post ι μ)
  received : List (Post ι μ)
  posted : List (Post ι μ)

/-- A new connection. -/
def Box.new : Box ι κ μ := ⟨[], [], [], []⟩

/-- The connections, who is registered for which topic, and the messages on their way, each with the
clients it is yet to be sent to. -/
structure Broker (ι κ μ : Type) where
  boxes : ι → Option (Box ι κ μ)
  interests : Set (ι × List κ)
  running : ι → Option (μ × Set ι)

/-- What happens: a client connects or is disconnected, leaves requests, or receives a message, or
the broker takes a request, sends a message on its way to a client, or is done with it. -/
inductive Label (ι κ μ : Type) where
  | connect (c : ι)
  | close (c : ι)
  | request (c : ι) (rs : List (Request κ μ))
  | handle (c : ι)
  | send (p c : ι)
  | done (p : ι)
  | receive (c : ι)

namespace Broker

/-- No client is connected. -/
def init : Broker ι κ μ := ⟨fun _ => none, ∅, fun _ => none⟩

/-- The clients registered for a prefix of the topic. -/
def recipients (s : Broker ι κ μ) (topic : List κ) : Set ι :=
  {c | ∃ K, K ≠ [] ∧ K <+: topic ∧ (c, K) ∈ s.interests}

/-- No message is on its way. -/
def Idle (s : Broker ι κ μ) : Prop := ∀ p, s.running p = none

open Classical in
/-- A message is published for some clients. -/
noncomputable def post (s : Broker ι κ μ) (m : Post ι μ) (who : Set ι) : Broker ι κ μ :=
  { s with
    boxes := fun c => (s.boxes c).map fun b =>
      if c ∈ who then { b with posted := b.posted ++ [m] } else b }

variable [DecidableEq ι]

/-- The connection of `c` changes. -/
def setBox (s : Broker ι κ μ) (c : ι) (b : Option (Box ι κ μ)) : Broker ι κ μ :=
  { s with boxes := Function.update s.boxes c b }

/-- What is on its way for `p` changes. -/
def setRunning (s : Broker ι κ μ) (p : ι) (r : Option (μ × Set ι)) : Broker ι κ μ :=
  { s with running := Function.update s.running p r }

/-- The transitions. -/
inductive Step : Broker ι κ μ → Label ι κ μ → Broker ι κ μ → Prop
  | connect {s : Broker ι κ μ} {c : ι} : s.boxes c = none →
      Step s (.connect c) (s.setBox c (some .new))
  | close {s : Broker ι κ μ} {c : ι} : s.Idle →
      Step s (.close c) { s.setBox c none with interests := {x ∈ s.interests | x.1 ≠ c} }
  | request {s : Broker ι κ μ} {c : ι} {b : Box ι κ μ} {rs : List (Request κ μ)} :
      s.boxes c = some b →
      Step s (.request c rs) (s.setBox c (some { b with requests := b.requests ++ rs }))
  | register {s : Broker ι κ μ} {c : ι} {b : Box ι κ μ} {T : List κ} {rest : List (Request κ μ)} :
      s.boxes c = some b → b.requests = .register T :: rest → s.Idle →
      Step s (.handle c)
        { s.setBox c (some { b with requests := rest }) with interests := insert (c, T) s.interests }
  | deregister {s : Broker ι κ μ} {c : ι} {b : Box ι κ μ} {T : List κ}
      {rest : List (Request κ μ)} :
      s.boxes c = some b → b.requests = .deregister T :: rest → s.Idle →
      Step s (.handle c)
        { s.setBox c (some { b with requests := rest }) with interests := s.interests \ {(c, T)} }
  | publish {s : Broker ι κ μ} {c : ι} {b : Box ι κ μ} {T : List κ} {m : μ}
      {rest : List (Request κ μ)} :
      s.boxes c = some b → b.requests = .publish T m :: rest → s.running c = none →
      Step s (.handle c) (((s.setBox c (some { b with requests := rest })).post ⟨c, m⟩
        (s.recipients T)).setRunning c (some (m, s.recipients T)))
  | send {s : Broker ι κ μ} {p c : ι} {b : Box ι κ μ} {m : μ} {left : Set ι} :
      s.running p = some (m, left) → c ∈ left → s.boxes c = some b →
      Step s (.send p c) ((s.setBox c (some { b with
        inbox := b.inbox ++ [⟨p, m⟩] })).setRunning p (some (m, left \ {c})))
  | done {s : Broker ι κ μ} {p : ι} {m : μ} : s.running p = some (m, ∅) →
      Step s (.done p) (s.setRunning p none)
  | receive {s : Broker ι κ μ} {c : ι} {b : Box ι κ μ} {m : Post ι μ} {rest : List (Post ι μ)} :
      s.boxes c = some b → b.inbox = m :: rest →
      Step s (.receive c)
        (s.setBox c (some { b with inbox := rest, received := b.received ++ [m] }))

open Classical in
/-- What is on its way from `p` to `c`. -/
noncomputable def onWay (s : Broker ι κ μ) (p c : ι) : List (Post ι μ) :=
  match s.running p with
  | none => []
  | some (m, left) => if c ∈ left then [⟨p, m⟩] else []

/-- The messages of a publisher. -/
def byPublisher (p : ι) (l : List (Post ι μ)) : List (Post ι μ) := l.filter fun m => m.publisher = p

/-- A client has got, or is going to get, from every publisher what was published for it, in order;
messages are for connected clients. -/
structure Ordered (s : Broker ι κ μ) : Prop where
  connected : ∀ c T, (c, T) ∈ s.interests → (s.boxes c).isSome
  awaited : ∀ p m left c, s.running p = some (m, left) → c ∈ left → (s.boxes c).isSome
  order : ∀ c b p, s.boxes c = some b →
    byPublisher p (b.received ++ b.inbox) ++ s.onWay p c = byPublisher p b.posted

variable {s s' : Broker ι κ μ} {p c : ι} {b : Box ι κ μ} {m : μ} {left : Set ι}

/-! ## Small facts -/

theorem byPublisher_append (p : ι) (l l' : List (Post ι μ)) :
    byPublisher p (l ++ l') = byPublisher p l ++ byPublisher p l' := List.filter_append ..

theorem byPublisher_self (p : ι) (m : μ) : byPublisher p [(⟨p, m⟩ : Post ι μ)] = [⟨p, m⟩] := by
  simp [byPublisher]

theorem byPublisher_ne {q : ι} (h : q ≠ p) (m : μ) :
    byPublisher p [(⟨q, m⟩ : Post ι μ)] = [] := by
  simp [byPublisher, h]

omit [DecidableEq ι] in
theorem onWay_none (h : s.running p = none) (c : ι) : s.onWay p c = [] := by
  rw [onWay, h]

omit [DecidableEq ι] in
theorem onWay_mem (h : s.running p = some (m, left)) (hc : c ∈ left) : s.onWay p c = [⟨p, m⟩] := by
  rw [onWay, h]
  exact if_pos hc

omit [DecidableEq ι] in
theorem onWay_not_mem (h : s.running p = some (m, left)) (hc : c ∉ left) : s.onWay p c = [] := by
  rw [onWay, h]
  exact if_neg hc

omit [DecidableEq ι] in
theorem onWay_congr (h : s'.running p = s.running p) (c : ι) : s'.onWay p c = s.onWay p c := by
  rw [onWay, onWay, h]

@[simp] theorem boxes_setBox_self (s : Broker ι κ μ) (c : ι) (b : Option (Box ι κ μ)) :
    (s.setBox c b).boxes c = b := Function.update_self ..

theorem boxes_setBox_ne {x : ι} (h : x ≠ c) (b : Option (Box ι κ μ)) :
    (s.setBox c b).boxes x = s.boxes x := Function.update_of_ne h ..

@[simp] theorem running_setBox (s : Broker ι κ μ) (c : ι) (b : Option (Box ι κ μ)) :
    (s.setBox c b).running = s.running := rfl

@[simp] theorem onWay_setBox (s : Broker ι κ μ) (b : Option (Box ι κ μ)) (p x : ι) :
    (s.setBox c b).onWay p x = s.onWay p x := rfl

omit [DecidableEq ι] in
@[simp] theorem onWay_post (s : Broker ι κ μ) (n : Post ι μ) (who : Set ι) (p x : ι) :
    (s.post n who).onWay p x = s.onWay p x := rfl

@[simp] theorem boxes_setRunning (s : Broker ι κ μ) (p : ι) (r : Option (μ × Set ι)) :
    (s.setRunning p r).boxes = s.boxes := rfl

@[simp] theorem running_setRunning_self (s : Broker ι κ μ) (p : ι) (r : Option (μ × Set ι)) :
    (s.setRunning p r).running p = r := Function.update_self ..

theorem running_setRunning_ne {q : ι} (h : q ≠ p) (r : Option (μ × Set ι)) :
    (s.setRunning p r).running q = s.running q := Function.update_of_ne h ..

theorem isSome_setBox {x : ι} (h : (s.boxes x).isSome) :
    ((s.setBox c (some b)).boxes x).isSome := by
  by_cases hx : x = c
  · subst hx
    rw [boxes_setBox_self]
    rfl
  · rwa [boxes_setBox_ne hx]

/-- A client that is not connected awaits nothing. -/
theorem Ordered.onWay_eq_nil (h : s.Ordered) (hc : s.boxes c = none) (p : ι) : s.onWay p c = [] := by
  cases hp : s.running p with
  | none => exact onWay_none hp c
  | some r =>
    obtain ⟨m, left⟩ := r
    refine onWay_not_mem hp fun hin => ?_
    have hsome := h.awaited p m left c hp hin
    rw [hc] at hsome
    cases hsome

/-! ## What keeps the order -/

theorem ordered_init : (init : Broker ι κ μ).Ordered where
  connected _ _ h := absurd h (Set.notMem_empty _)
  awaited _ _ _ _ h := by cases h
  order _ _ _ h := by cases h

/-- The connection of a client changes, with the same messages got and to come. -/
theorem Ordered.setBox (h : s.Ordered) (hb : s.boxes c = some b) {B : Box ι κ μ}
    (hposted : B.posted = b.posted) (hgot : B.received ++ B.inbox = b.received ++ b.inbox) : (s.setBox c (some B)).Ordered where
  connected x T hx := isSome_setBox (h.connected x T hx)
  awaited q n left x hq hx := isSome_setBox (h.awaited q n left x hq hx)
  order x b₁ q hx := by
    rw [onWay_setBox]
    by_cases hxc : x = c
    · subst hxc
      rw [boxes_setBox_self] at hx
      obtain rfl := Option.some.inj hx
      rw [hgot, hposted]
      exact h.order x b q hb
    · rw [boxes_setBox_ne hxc] at hx
      exact h.order x b₁ q hx

/-- Registrations of connected clients change. -/
theorem Ordered.setInterests (h : s.Ordered) {I : Set (ι × List κ)}
    (hI : ∀ x ∈ I, (s.boxes x.1).isSome) : ({ s with interests := I } : Broker ι κ μ).Ordered where
  connected c T hc := hI (c, T) hc
  awaited := h.awaited
  order := h.order

theorem Ordered.recipients (h : s.Ordered) {T : List κ} (hc : c ∈ s.recipients T) :
    (s.boxes c).isSome := by
  obtain ⟨K, -, -, hK⟩ := hc
  exact h.connected c K hK

/-- A message is published: it is to be sent to all it is for. -/
theorem Ordered.publish (h : s.Ordered) (hp : s.running p = none) {who : Set ι}
    (hwho : ∀ c ∈ who, (s.boxes c).isSome) :
    ((s.post ⟨p, m⟩ who).setRunning p (some (m, who))).Ordered := by
  classical
  have hsome : ∀ {x : ι}, (s.boxes x).isSome → ((s.post ⟨p, m⟩ who).boxes x).isSome := by
    intro x hx
    simpa [post] using hx
  refine ⟨fun x T hx => hsome (h.connected x T hx), fun q n left x hq hx => ?_,
    fun x b₁ q hx => ?_⟩
  · by_cases hqp : q = p
    · subst hqp
      rw [running_setRunning_self] at hq
      obtain ⟨rfl, rfl⟩ := Prod.mk.inj (Option.some.inj hq)
      exact hsome (hwho x hx)
    · rw [running_setRunning_ne hqp] at hq
      exact hsome (h.awaited q n left x hq hx)
  · obtain ⟨b, hb, rfl⟩ := Option.map_eq_some_iff.mp hx
    have hold := h.order x b q hb
    by_cases hqp : q = p
    · subst hqp
      rw [onWay_none hp, List.append_nil] at hold
      by_cases hin : x ∈ who
      · rw [onWay_mem (running_setRunning_self ..) hin, if_pos hin]
        dsimp only
        rw [hold, byPublisher_append, byPublisher_self]
      · rw [onWay_not_mem (running_setRunning_self ..) hin, if_neg hin, List.append_nil, hold]
    · rw [onWay_congr (running_setRunning_ne hqp _), onWay_post]
      by_cases hin : x ∈ who
      · rw [if_pos hin]
        dsimp only
        rw [byPublisher_append q b.posted, byPublisher_ne (Ne.symm hqp), List.append_nil]
        exact hold
      · rw [if_neg hin]
        exact hold

/-- A message on its way is sent to one client. -/
theorem Ordered.send (h : s.Ordered) (hp : s.running p = some (m, left)) (hc : c ∈ left)
    (hb : s.boxes c = some b) :
    ((s.setBox c (some { b with
      inbox := b.inbox ++ [⟨p, m⟩] })).setRunning p (some (m, left \ {c}))).Ordered := by
  refine ⟨fun x T hx => isSome_setBox (h.connected x T hx), fun q n l x hq hx => ?_,
    fun x b₁ q hx => ?_⟩
  · by_cases hqp : q = p
    · subst hqp
      rw [running_setRunning_self] at hq
      obtain ⟨rfl, rfl⟩ := Prod.mk.inj (Option.some.inj hq)
      exact isSome_setBox (h.awaited q m left x hp hx.1)
    · rw [running_setRunning_ne hqp] at hq
      exact isSome_setBox (h.awaited q n l x hq hx)
  · rw [boxes_setRunning] at hx
    by_cases hxc : x = c
    · subst hxc
      rw [boxes_setBox_self] at hx
      obtain rfl := Option.some.inj hx
      have hold := h.order x b q hb
      dsimp only
      rw [← List.append_assoc, byPublisher_append]
      by_cases hqp : q = p
      · subst hqp
        rw [onWay_mem hp hc] at hold
        rw [onWay_not_mem (running_setRunning_self ..) (fun hin => hin.2 rfl), byPublisher_self,
          List.append_nil]
        exact hold
      · rw [onWay_congr (running_setRunning_ne hqp _), byPublisher_ne (Ne.symm hqp),
          List.append_nil]
        exact hold
    · rw [boxes_setBox_ne hxc] at hx
      have hold := h.order x b₁ q hx
      by_cases hqp : q = p
      · subst hqp
        by_cases hin : x ∈ left
        · rw [onWay_mem hp hin] at hold
          have hstill : x ∈ left \ {c} := ⟨hin, hxc⟩
          rw [onWay_mem (running_setRunning_self ..) hstill]
          exact hold
        · rw [onWay_not_mem hp hin] at hold
          rw [onWay_not_mem (running_setRunning_self ..) (fun h => hin h.1)]
          exact hold
      · rw [onWay_congr (running_setRunning_ne hqp _)]
        exact hold

/-- A client connects, for whom nothing is on its way. -/
theorem Ordered.connect (h : s.Ordered) (hc : s.boxes c = none) :
    (s.setBox c (some .new)).Ordered := by
  refine ⟨fun x T hx => isSome_setBox (h.connected x T hx),
    fun q n left x hq hx => isSome_setBox (h.awaited q n left x hq hx), fun x b₁ q hx => ?_⟩
  rw [onWay_setBox]
  by_cases hxc : x = c
  · subst hxc
    rw [boxes_setBox_self] at hx
    obtain rfl := Option.some.inj hx
    rw [h.onWay_eq_nil hc]
    rfl
  · rw [boxes_setBox_ne hxc] at hx
    exact h.order x b₁ q hx

/-- A client leaves, with its registrations, while nothing is on its way. -/
theorem Ordered.close (h : s.Ordered) (hidle : s.Idle) :
    Ordered { s.setBox c none with interests := {x ∈ s.interests | x.1 ≠ c} } := by
  refine ⟨fun x T hx => ?_, fun q n left x hq _ => ?_, fun x b₁ q hx => ?_⟩
  · change ((s.setBox c none).boxes x).isSome
    rw [boxes_setBox_ne hx.2]
    exact h.connected x T hx.1
  · have hrun := hidle q
    rw [show s.running q = some (n, left) from hq] at hrun
    cases hrun
  · change (s.setBox c none).boxes x = some b₁ at hx
    by_cases hxc : x = c
    · subst hxc
      rw [boxes_setBox_self] at hx
      cases hx
    · rw [boxes_setBox_ne hxc] at hx
      exact h.order x b₁ q hx

/-- A message that has been sent to all is on its way no longer. -/
theorem Ordered.done (h : s.Ordered) (hp : s.running p = some (m, ∅)) :
    (s.setRunning p none).Ordered := by
  refine ⟨h.connected, fun q n left x hq hx => ?_, fun x b₁ q hx => ?_⟩
  · by_cases hqp : q = p
    · subst hqp
      rw [running_setRunning_self] at hq
      cases hq
    · rw [running_setRunning_ne hqp] at hq
      exact h.awaited q n left x hq hx
  · have hold := h.order x b₁ q hx
    by_cases hqp : q = p
    · subst hqp
      rw [onWay_not_mem hp (Set.notMem_empty x)] at hold
      rw [onWay_none (running_setRunning_self ..)]
      exact hold
    · rw [onWay_congr (running_setRunning_ne hqp _)]
      exact hold

/-- Every transition keeps the order. -/
theorem Ordered.step (h : s.Ordered) {l : Label ι κ μ} (hstep : Step s l s') : s'.Ordered := by
  cases hstep with
  | connect hc => exact h.connect hc
  | close hidle => exact h.close hidle
  | request hb => exact h.setBox hb rfl rfl
  | @register c b T rest hb _ _ =>
    refine (h.setBox hb (B := { b with requests := rest }) rfl rfl).setInterests ?_
    intro x hx
    rcases hx with rfl | hx
    · simp
    · exact isSome_setBox (h.connected x.1 x.2 hx)
  | @deregister c b T rest hb _ _ =>
    refine (h.setBox hb (B := { b with requests := rest }) rfl rfl).setInterests ?_
    intro x hx
    exact isSome_setBox (h.connected x.1 x.2 hx.1)
  | @publish c b T m rest hb _ hrun =>
    exact (h.setBox hb (B := { b with requests := rest }) rfl rfl).publish hrun
      fun x hx => isSome_setBox (h.recipients hx)
  | send hp hc hb => exact h.send hp hc hb
  | done hp => exact h.done hp
  | @receive c b m rest hb hin =>
    refine h.setBox hb (B := { b with inbox := rest, received := b.received ++ [m] }) rfl ?_
    rw [hin]
    simp

/-- In every run. -/
theorem Ordered.of_runs {ls : List (Label ι κ μ)} (h : Trail Step init ls s) : s.Ordered :=
  h.invariant ordered_init fun ho hstep => ho.step hstep

/-! ## Connections -/

omit [DecidableEq ι] in
theorem boxes_post_eq_none {c : ι} {n : Post ι μ} {who : Set ι} :
    (s.post n who).boxes c = none ↔ s.boxes c = none := by
  simp only [post, Option.map_eq_none_iff]

theorem boxes_setBox_eq_none {x : ι} (hb : s.boxes c = some b) (B : Box ι κ μ)
    (hx : s.boxes x = none) : (s.setBox c (some B)).boxes x = none := by
  have hxc : x ≠ c := by
    rintro rfl
    rw [hb] at hx
    cases hx
  rwa [boxes_setBox_ne hxc]

/-- A client is connected by no transition but that. -/
theorem Step.not_connected {l : Label ι κ μ} (hstep : Step s l s') {x : ι}
    (hx : s.boxes x = none) (hl : l ≠ .connect x) : s'.boxes x = none := by
  cases hstep with
  | @connect c hc =>
    have hxc : x ≠ c := by
      rintro rfl
      exact hl rfl
    rwa [boxes_setBox_ne hxc]
  | @close c hidle =>
    change (s.setBox c none).boxes x = none
    by_cases hxc : x = c
    · rw [hxc, boxes_setBox_self]
    · rwa [boxes_setBox_ne hxc]
  | request hb => exact boxes_setBox_eq_none hb _ hx
  | register hb _ _ => exact boxes_setBox_eq_none hb _ hx
  | deregister hb _ _ => exact boxes_setBox_eq_none hb _ hx
  | publish hb _ _ =>
    rw [boxes_setRunning, boxes_post_eq_none]
    exact boxes_setBox_eq_none hb _ hx
  | send _ _ hb =>
    rw [boxes_setRunning]
    exact boxes_setBox_eq_none hb _ hx
  | done _ => exact hx
  | receive hb _ => exact boxes_setBox_eq_none hb _ hx

/-- In every run only finitely many clients are connected. -/
theorem finite_of_runs {ls : List (Label ι κ μ)} (h : Trail Step init ls s) :
    ∃ F : Finset ι, ∀ c, c ∉ F → s.boxes c = none := by
  refine h.invariant (P := fun s => ∃ F : Finset ι, ∀ c, c ∉ F → s.boxes c = none)
    ⟨∅, fun _ _ => rfl⟩ ?_
  rintro a a' l ⟨F, hF⟩ hstep
  cases l with
  | connect c =>
    refine ⟨insert c F, fun x hx => ?_⟩
    rw [Finset.mem_insert, not_or] at hx
    refine hstep.not_connected (hF x hx.2) fun heq => hx.1 ?_
    cases heq
    rfl
  | close | request | handle | send | done | receive =>
    exact ⟨F, fun x hx => hstep.not_connected (hF x hx) (by rintro ⟨⟩)⟩

end Broker

end OpxCommonUtils.PubSub
