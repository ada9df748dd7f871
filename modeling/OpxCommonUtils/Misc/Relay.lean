import Mathlib.Data.List.Basic
import Mathlib.Data.List.TakeWhile
import Mathlib.Logic.Relation

/-!
# A relay between a service and one client at a time

The output of a service goes to the client that is there, or is thrown away while none is; what the
client sends is the input of the service. A new client is greeted with something made from the bytes
that were read last. A chunk that cannot be passed on as a whole breaks the connection. In every run
the clients have got parts of the output, one behind the other (`Relay.Fair`).
-/

namespace OpxCommonUtils

/-- A connection. `start` is how much of the output had been read before it, `welcome` what it was to
be greeted with and `greeting` what of it was sent, `got` the output that was passed on, `taken` what
was read from the client and `passed` what of it became input. -/
structure Guest (α : Type) where
  start : Nat
  welcome : List α
  greeting : List α
  got : List α
  taken : List α
  passed : List α

/-- When a client has come, and what it was to be greeted with. -/
def Guest.arrival {α : Type} (g : Guest α) : Nat × List α := (g.start, g.welcome)

/-- The output that was read and the input that was given, the clients that have left and the one
that is there, and the bytes that were read last. -/
structure Relay (α : Type) where
  output : List α
  input : List α
  past : List (Guest α)
  current : Option (Guest α)
  last : List α

namespace Relay

variable {α : Type}

/-- Nothing has happened. -/
def init : Relay α := ⟨[], [], [], none, []⟩

/-- A client that connects now. -/
def guest (s : Relay α) (welcome greeting : List α) : Guest α :=
  ⟨s.output.length, welcome, greeting, [], [], []⟩

/-- The client has left, or is still there when all of a chunk was passed on. -/
def after (s : Relay α) (g : Guest α) (stays : Prop) [Decidable stays] : Relay α :=
  if stays then { s with current := some g }
  else { s with current := none, past := s.past ++ [g] }

variable (greet : List α → List α)

/-- The transitions; `n` bytes of a chunk are passed on. -/
inductive Step : Relay α → Relay α → Prop
  | flush {s : Relay α} (bs : List α) : s.current = none →
      Step s { s with output := s.output ++ bs, last := bs }
  | connect {s : Relay α} : s.current = none →
      Step s { s with current := some (s.guest (greet s.last) (greet s.last)) }
  | refuse {s : Relay α} {greeting : List α} : s.current = none → greeting <+: greet s.last →
      Step s { s with past := s.past ++ [s.guest (greet s.last) greeting] }
  | output {s : Relay α} {g : Guest α} {bs : List α} {n : Nat} : s.current = some g →
      n ≤ bs.length →
      Step s (after { s with output := s.output ++ bs, last := bs }
        { g with got := g.got ++ bs.take n } (n = bs.length))
  | input {s : Relay α} {g : Guest α} {bs : List α} {n : Nat} : s.current = some g →
      n ≤ bs.length →
      Step s (after { s with input := s.input ++ bs.take n, last := bs }
        { g with taken := g.taken ++ bs, passed := g.passed ++ bs.take n } (n = bs.length))
  | close {s : Relay α} {g : Guest α} : s.current = some g →
      Step s { s with current := none, past := s.past ++ [g] }

/-- The runs. -/
abbrev Leads : Relay α → Relay α → Prop := Relation.ReflTransGen (Step greet)

/-- The part of the output a client was given, after the whole greeting, and its part of the
input. -/
structure GuestOk (output : List α) (g : Guest α) : Prop where
  start : g.start ≤ output.length
  greeting : g.greeting <+: g.welcome
  greeted : g.got = [] ∨ g.greeting = g.welcome
  got : g.got <+: output.drop g.start
  passed : g.passed <+: g.taken

/-- All clients, in the order of their connections. -/
def guests (s : Relay α) : List (Guest α) := s.past ++ s.current.toList

/-- The arrivals of all clients, in their order. -/
def arrivals (s : Relay α) : List (Nat × List α) := s.guests.map Guest.arrival

/-- Every client has got a part of the output that begins where it connected, behind the parts of
the clients before; the input is made from parts of what they sent. Nothing is missing for the
client that is there. -/
structure Fair (s : Relay α) : Prop where
  guests : ∀ g ∈ s.guests, GuestOk s.output g
  behind : s.guests.Pairwise fun g g' => g.start + g.got.length ≤ g'.start
  input : s.input = (s.guests.map Guest.passed).flatten
  current : ∀ g, s.current = some g →
    g.greeting = g.welcome ∧ g.got = s.output.drop g.start ∧ g.passed = g.taken

theorem GuestOk.more {output : List α} {g : Guest α} (h : GuestOk output g) (bs : List α) :
    GuestOk (output ++ bs) g := by
  refine ⟨?_, h.greeting, h.greeted, ?_, h.passed⟩
  · rw [List.length_append]
    exact h.start.trans (Nat.le_add_right _ _)
  · rw [List.drop_append_of_le_length h.start]
    exact h.got.trans (List.prefix_append _ _)

/-- A client's part ends within the output. -/
theorem GuestOk.end_le {output : List α} {g : Guest α} (h : GuestOk output g) :
    g.start + g.got.length ≤ output.length := by
  have hlen := h.got.length_le
  have hstart := h.start
  rw [List.length_drop] at hlen
  omega

theorem GuestOk.new (s : Relay α) {welcome greeting : List α} (h : greeting <+: welcome) :
    GuestOk s.output (s.guest welcome greeting) :=
  ⟨Nat.le_refl _, h, .inl rfl, List.nil_prefix, List.nil_prefix⟩

section After

variable {s : Relay α}

/-- Whether the client stays or not, the same clients have been there. -/
theorem guests_after (g : Guest α) (stays : Prop) [Decidable stays] :
    (s.after g stays).guests = s.past ++ [g] := by
  unfold after
  split_ifs <;> simp [guests]

theorem current_after {g g' : Guest α} {stays : Prop} [Decidable stays]
    (h : (s.after g stays).current = some g') : stays ∧ g' = g := by
  unfold after at h
  split_ifs at h with hstays
  exact ⟨hstays, (Option.some.inj h).symm⟩

@[simp] theorem output_after (g : Guest α) (stays : Prop) [Decidable stays] :
    (s.after g stays).output = s.output := by
  unfold after
  split_ifs <;> rfl

@[simp] theorem input_after (g : Guest α) (stays : Prop) [Decidable stays] :
    (s.after g stays).input = s.input := by
  unfold after
  split_ifs <;> rfl

/-- One more client at the end. -/
theorem Fair.snoc (h : s.Fair) (hnone : s.current = none) {welcome greeting : List α}
    (hpart : greeting <+: welcome) :
    (∀ g ∈ s.past ++ [s.guest welcome greeting], GuestOk s.output g) ∧
      (s.past ++ [s.guest welcome greeting]).Pairwise
        (fun g g' => g.start + g.got.length ≤ g'.start) ∧
      s.input = ((s.past ++ [s.guest welcome greeting]).map Guest.passed).flatten := by
  have hguests : s.guests = s.past := by simp [Relay.guests, hnone]
  obtain ⟨hok, hbehind, hinput, -⟩ := h
  rw [hguests] at hok hbehind hinput
  refine ⟨?_, ?_, by simpa [guest] using hinput⟩
  · simp only [List.forall_mem_append, List.forall_mem_singleton]
    exact ⟨hok, .new _ hpart⟩
  · rw [List.pairwise_append]
    refine ⟨hbehind, List.pairwise_singleton _ _, ?_⟩
    intro g hg g' hg'
    rw [List.mem_singleton.mp hg']
    exact (hok g hg).end_le

/-- The client that is there gets the next chunk, or a part of it. -/
theorem Fair.deliver (h : s.Fair) {g : Guest α} (hg : s.current = some g) {bs : List α} {n : Nat}
    (last : List α) :
    (after { s with output := s.output ++ bs, last := last }
      { g with got := g.got ++ bs.take n } (n = bs.length)).Fair := by
  have hguests : s.guests = s.past ++ [g] := by simp [Relay.guests, hg]
  obtain ⟨hok, hbehind, hinput, hcurrent⟩ := h
  rw [hguests] at hok hbehind hinput
  obtain ⟨hgreet, hgot, hpassed⟩ := hcurrent g hg
  have hg' := hok g (by simp)
  constructor
  · rw [guests_after, output_after]
    simp only [List.forall_mem_append, List.forall_mem_singleton]
    refine ⟨fun p hp => (hok p (by simp [hp])).more bs, ?_, hg'.greeting, .inr hgreet, ?_,
      hg'.passed⟩
    · exact (hg'.more bs).start
    · rw [List.drop_append_of_le_length hg'.start, hgot, List.prefix_append_right_inj]
      exact List.take_prefix _ _
  · rw [guests_after]
    rw [List.pairwise_append] at hbehind ⊢
    refine ⟨hbehind.1, List.pairwise_singleton _ _, ?_⟩
    intro p hp p' hp'
    rw [List.mem_singleton.mp hp']
    exact hbehind.2.2 p hp g (List.mem_singleton_self g)
  · rw [guests_after, input_after]
    simpa using hinput
  · intro p hp
    obtain ⟨hall, rfl⟩ := current_after hp
    rw [output_after]
    refine ⟨hgreet, ?_, hpassed⟩
    rw [hall, List.take_length, hgot, List.drop_append_of_le_length hg'.start]

/-- What the client that is there sends becomes input, or a part of it. -/
theorem Fair.accept (h : s.Fair) {g : Guest α} (hg : s.current = some g) {bs : List α} {n : Nat}
    (last : List α) :
    (after { s with input := s.input ++ bs.take n, last := last }
      { g with taken := g.taken ++ bs, passed := g.passed ++ bs.take n } (n = bs.length)).Fair := by
  have hguests : s.guests = s.past ++ [g] := by simp [Relay.guests, hg]
  obtain ⟨hok, hbehind, hinput, hcurrent⟩ := h
  rw [hguests] at hok hbehind hinput
  obtain ⟨hgreet, hgot, hpassed⟩ := hcurrent g hg
  have hg' := hok g (by simp)
  constructor
  · rw [guests_after, output_after]
    simp only [List.forall_mem_append, List.forall_mem_singleton]
    refine ⟨fun p hp => hok p (by simp [hp]), hg'.start, hg'.greeting, hg'.greeted, hg'.got, ?_⟩
    rw [hpassed, List.prefix_append_right_inj]
    exact List.take_prefix _ _
  · rw [guests_after]
    rw [List.pairwise_append] at hbehind ⊢
    refine ⟨hbehind.1, List.pairwise_singleton _ _, ?_⟩
    intro p hp p' hp'
    rw [List.mem_singleton.mp hp']
    exact hbehind.2.2 p hp g (List.mem_singleton_self g)
  · rw [guests_after, input_after]
    simp [hinput]
  · intro p hp
    obtain ⟨hall, rfl⟩ := current_after hp
    rw [output_after]
    refine ⟨hgreet, hgot, ?_⟩
    rw [hall, List.take_length, hpassed]

end After

theorem Fair.step {greet : List α → List α} {s s' : Relay α} (h : s.Fair)
    (hstep : Step greet s s') : s'.Fair := by
  cases hstep with
  | flush _ hnone =>
    obtain ⟨hok, hbehind, hinput, -⟩ := h
    exact ⟨fun g hg => (hok g hg).more _, hbehind, hinput, by simp [hnone]⟩
  | connect hnone =>
    obtain ⟨hok, hbehind, hinput⟩ := h.snoc hnone (List.prefix_refl (greet s.last))
    exact ⟨hok, hbehind, hinput, fun g hg => by simp [← Option.some.inj hg, guest]⟩
  | refuse hnone hpart =>
    obtain ⟨hok, hbehind, hinput⟩ := h.snoc hnone hpart
    exact ⟨by simpa [Relay.guests, hnone] using hok, by simpa [Relay.guests, hnone] using hbehind,
      by simpa [Relay.guests, hnone] using hinput, by simp [hnone]⟩
  | output hg _ => exact h.deliver hg _
  | input hg _ => exact h.accept hg _
  | close hg =>
    obtain ⟨hok, hbehind, hinput, -⟩ := h
    refine ⟨?_, ?_, ?_, by simp⟩
    · simpa [Relay.guests, hg] using hok
    · simpa [Relay.guests, hg] using hbehind
    · simpa [Relay.guests, hg] using hinput

section Arrivals

variable {greet : List α → List α} {s s' s'' : Relay α}

/-- The relay has gone on, and no client has come. -/
structure Continues (greet : List α → List α) (s s' : Relay α) : Prop where
  leads : Leads greet s s'
  arrivals : s'.arrivals = s.arrivals

/-- The relay has gone on, and at most one client has come, last of all. -/
structure Passes (greet : List α → List α) (s s' : Relay α) : Prop where
  leads : Leads greet s s'
  arrivals : s'.arrivals = s.arrivals ∨
    s'.arrivals = s.arrivals ++ [(s'.output.length, greet s'.last)]

theorem Continues.refl (s : Relay α) : Continues greet s s := ⟨.refl, rfl⟩

theorem Continues.trans (h : Continues greet s s') (h' : Continues greet s' s'') :
    Continues greet s s'' :=
  ⟨h.leads.trans h'.leads, h'.arrivals.trans h.arrivals⟩

theorem Continues.passes (h : Continues greet s s') : Passes greet s s' :=
  ⟨h.leads, .inl h.arrivals⟩

theorem Continues.trans_passes (h : Continues greet s s') (h' : Passes greet s' s'') :
    Passes greet s s'' :=
  ⟨h.leads.trans h'.leads, h.arrivals ▸ h'.arrivals⟩

theorem arrivals_of_current {g : Guest α} (hg : s.current = some g) :
    s.arrivals = s.past.map Guest.arrival ++ [g.arrival] := by
  simp [Relay.arrivals, guests, hg]

theorem arrivals_after (g : Guest α) (stays : Prop) [Decidable stays] :
    (s.after g stays).arrivals = s.past.map Guest.arrival ++ [g.arrival] := by
  simp [Relay.arrivals, guests_after]

theorem Continues.flush (bs : List α) (h : s.current = none) :
    Continues greet s { s with output := s.output ++ bs, last := bs } :=
  ⟨.single (.flush bs h), rfl⟩

theorem Continues.output {g : Guest α} {bs : List α} {n : Nat} (hg : s.current = some g)
    (hn : n ≤ bs.length) :
    Continues greet s (after { s with output := s.output ++ bs, last := bs }
      { g with got := g.got ++ bs.take n } (n = bs.length)) :=
  ⟨.single (.output hg hn), (arrivals_after _ _).trans (arrivals_of_current hg).symm⟩

theorem Continues.input {g : Guest α} {bs : List α} {n : Nat} (hg : s.current = some g)
    (hn : n ≤ bs.length) :
    Continues greet s (after { s with input := s.input ++ bs.take n, last := bs }
      { g with taken := g.taken ++ bs, passed := g.passed ++ bs.take n } (n = bs.length)) :=
  ⟨.single (.input hg hn), (arrivals_after _ _).trans (arrivals_of_current hg).symm⟩

theorem Continues.close {g : Guest α} (hg : s.current = some g) :
    Continues greet s { s with current := none, past := s.past ++ [g] } :=
  ⟨.single (.close hg), by simp [Relay.arrivals, guests, hg]⟩

theorem Passes.connect (h : s.current = none) :
    Passes greet s { s with current := some (s.guest (greet s.last) (greet s.last)) } :=
  ⟨.single (.connect h), .inr (by simp [Relay.arrivals, guests, h, guest, Guest.arrival])⟩

theorem Passes.refuse {greeting : List α} (h : s.current = none) (hg : greeting <+: greet s.last) :
    Passes greet s { s with past := s.past ++ [s.guest (greet s.last) greeting] } :=
  ⟨.single (.refuse h hg), .inr (by simp [Relay.arrivals, guests, h, guest, Guest.arrival])⟩

end Arrivals

end Relay

end OpxCommonUtils
