import OpxCommonUtils.Event.Bus
import OpxCommonUtils.Event.Proofs.Requests
import OpxCommonUtils.Misc.PubSub

/-!
# The event service is a broker

Seen through the bytes on its streams the event service does what `PubSub.Broker` does with requests
and messages: every run of the server with its clients, whichever jobs and calls come in between, is
a run of the broker (`bus_is_broker`), so that what holds of the broker holds of it.
-/

namespace OpxCommonUtils.Event

open Io PubSub

/-- Keys fit their array, data has at most `N` bytes, and a client's buffer has room for so many and
a message structure. The clients' sends succeed, reads are not interrupted too often, and a send to a
client begins when no other send to it is unfinished. -/
def BusLabel.Allowed (N : Nat) (s : Bus) : BusLabel → Prop
  | .connect _ | .close _ | .write .. | .done _ => True
  | .registerInterest _ keys as | .removeInterest _ keys as =>
    (∀ key ∈ keys, key.len ≤ STD_EVENT_KEY_MAX) ∧ Steady as
  | .publish _ key data as => key.len ≤ STD_EVENT_KEY_MAX ∧ data.length ≤ N ∧ Steady as
  | .handle _ as | .waitForEvent _ as => Benign STD_MAX_EINTR as
  | .send _ c _ => ∀ x ∈ s.running.entries, x.2.sendingTo ≠ some c
  | .waitForEventData _ len as => N + sizeofEventMsg ≤ len ∧ Benign STD_MAX_EINTR as

/-- The steps of the runs. -/
def Bus.Next (e : Endian) (junk : List UInt8) (N : Nat) (s : Bus) (l : BusLabel) (s' : Bus) : Prop :=
  l.Allowed N s ∧ s.step e junk l = some s'

/-- What a message carries: its key and its data. -/
abbrev Payload := StdEventKey × List UInt8

/-- The request as the broker takes it. -/
def ClientRequest.request : ClientRequest → Request UInt32 Payload
  | .register key => .register key.toList
  | .deregister key => .deregister key.toList
  | .publish key data => .publish key.toList (key, data)

/-- What the broker does at a label: a message is sent when its last bytes are on the stream. -/
def BusLabel.spec : BusLabel → Option (PubSub.Label Int UInt32 Payload)
  | .connect fd => some (.connect fd)
  | .close fd => some (.close fd)
  | .registerInterest fd keys _ =>
    some (.request fd (keys.map fun key => (ClientRequest.register key).request))
  | .removeInterest fd keys _ =>
    some (.request fd (keys.map fun key => (ClientRequest.deregister key).request))
  | .publish fd key data _ => some (.request fd [(ClientRequest.publish key data).request])
  | .handle fd _ => some (.handle fd)
  | .send .. => none
  | .write fd c _ last => if last then some (.send fd c) else none
  | .done fd => some (.done fd)
  | .waitForEventData fd _ _ | .waitForEvent fd _ => some (.receive fd)

/-- The frame of a message that was published. -/
def postMessage (e : Endian) (m : Post Int Payload) : Message :=
  (ClientRequest.publish m.payload.1 m.payload.2).message e

/-- What a client's call delivers of a message. -/
def delivered (e : Endian) (m : Post Int Payload) : StdError × Mem × Mem :=
  (.ok, m.payload.1.bytes e ++ e.bytes 4 m.payload.2.length, m.payload.2)

/-- What the unfinished send to a client has put on its stream. -/
def Unfinished (running : AList fun _ : Int => Publication) (c : Int) (w : List UInt8) : Prop :=
  (∃ p run, running.lookup p = some run ∧ run.sendingTo = some c ∧ w = run.written) ∨
    w = [] ∧ ∀ p run, running.lookup p = some run → run.sendingTo ≠ some c

/-- At most one send to a client is unfinished. -/
def OneSend (running : AList fun _ : Int => Publication) : Prop :=
  ∀ c p q run run', running.lookup p = some run → run.sendingTo = some c →
    running.lookup q = some run' → run'.sendingTo = some c → p = q

/-- The streams of a connection carry the requests and the messages of the box, and what an
unfinished send has put there. -/
structure LinkRefines (e : Endian) (N : Nat) (part : List UInt8 → Prop) (link : Link)
    (b : Box Int UInt32 Payload) : Prop where
  up : ∃ rs : List ClientRequest, (∀ r ∈ rs, r.Ok N) ∧
    link.up = frames e (rs.map (·.message e)) ∧ b.requests = rs.map (·.request)
  small : ∀ m ∈ b.inbox, m.payload.2.length ≤ N
  down : ∃ w, part w ∧ link.down = frames e (b.inbox.map (postMessage e)) ++ w
  received : link.received = b.received.map (delivered e)

/-- A publication that runs is a message on its way. -/
structure RunRefines (e : Endian) (N : Nat) (run : Publication) (m : Payload × Set Int) :
    Prop where
  msg : run.msg = msgBytes e m.1.1 m.1.2
  small : m.1.2.length ≤ N
  left : ∀ c, c ∈ run.todo ↔ c ∈ m.2
  nodup : run.todo.Nodup
  idle : run.rest = [] → run.written = []
  sending : run.rest ≠ [] → run.todo ≠ [] ∧
    run.written ++ run.rest = ((ClientRequest.publish m.1.1 m.1.2).message e).frame e

/-- Nothing on both sides, or something that is related. -/
def OptionRel {α β : Type} (R : α → β → Prop) : Option α → Option β → Prop
  | none, none => True
  | some a, some b => R a b
  | _, _ => False

/-- The server and its clients do what the broker does. -/
structure Refines (e : Endian) (N : Nat) (s : Bus) (S : Broker Int UInt32 Payload) : Prop where
  tree : s.tree.Registers S.interests
  links : ∀ fd, OptionRel (LinkRefines e N (Unfinished s.running fd)) (s.links fd) (S.boxes fd)
  running : ∀ fd, OptionRel (RunRefines e N) (s.running.lookup fd) (S.running fd)
  oneSend : OneSend s.running

section
variable {e : Endian} {junk : List UInt8} {N : Nat} {s s' : Bus} {S : Broker Int UInt32 Payload}
  {fd : Int} {link : Link}

theorem OptionRel.of_some {α β : Type} {R : α → β → Prop} {x : Option α} {y : Option β} {a : α}
    (h : OptionRel R x y) (hx : x = some a) : ∃ b, y = some b ∧ R a b := by
  subst hx
  cases y with
  | none => exact h.elim
  | some b => exact ⟨b, rfl, h⟩

theorem OptionRel.of_none {α β : Type} {R : α → β → Prop} {x : Option α} {y : Option β}
    (h : OptionRel R x y) (hx : x = none) : y = none := by
  subst hx
  cases y with
  | none => rfl
  | some b => exact h.elim

theorem optionRel_none {α β : Type} {R : α → β → Prop} : OptionRel R none none := trivial

theorem optionRel_some {α β : Type} {R : α → β → Prop} {a : α} {b : β} (h : R a b) :
    OptionRel R (some a) (some b) := h

theorem refines_init (e : Endian) (N : Nat) : Refines e N Bus.init Broker.init where
  tree := StdClientTree.registers_empty
  links _ := trivial
  running fd := by
    rw [show Bus.init.running = ∅ from rfl, AList.lookup_empty]
    trivial
  oneSend _ _ _ _ _ hp := by
    rw [show Bus.init.running = ∅ from rfl, AList.lookup_empty] at hp
    cases hp

/-! ## Unfinished sends -/

theorem Publication.sendingTo_eq_some {run : Publication} {c : Int} :
    run.sendingTo = some c ↔ run.rest ≠ [] ∧ run.todo.head? = some c := by
  rw [Publication.sendingTo]
  split_ifs with hrest
  · simp [hrest]
  · simp [hrest]

section
variable {running : AList fun _ : Int => Publication} {p c x : Int} {run run' : Publication}
  {w : List UInt8}

theorem forall_entries_iff {P : Publication → Prop} :
    (∀ y ∈ running.entries, P y.2) ↔ ∀ q r, running.lookup q = some r → P r :=
  ⟨fun h q r hq => h ⟨q, r⟩ (AList.mem_lookup_iff.mp hq),
    fun h y hy => h y.1 y.2 (AList.mem_lookup_iff.mpr hy)⟩

theorem unfinished_nil (h : running.keys = []) (c : Int) : Unfinished running c [] := by
  refine .inr ⟨rfl, fun p run hp => ?_⟩
  have hin := AList.lookup_isSome.mp (Option.isSome_of_eq_some hp)
  rw [AList.mem_keys, h] at hin
  cases hin

/-- What the unfinished send of a publication has put on the stream. -/
theorem OneSend.written (h : OneSend running) (hp : running.lookup p = some run)
    (hto : run.sendingTo = some c) (hw : Unfinished running c w) : w = run.written := by
  rcases hw with ⟨q, r, hq, hr, rfl⟩ | ⟨-, hnone⟩
  · obtain rfl := h c q p r run hq hr hp hto
    rw [hp] at hq
    rw [Option.some.inj hq]
  · exact absurd hto (hnone p run hp)

/-- A publication changes that sends to another client before and after. -/
theorem Unfinished.insert (h : Unfinished running x w)
    (hold : ∀ r, running.lookup p = some r → r.sendingTo ≠ some x)
    (hnew : run'.sendingTo ≠ some x) : Unfinished (running.insert p run') x w := by
  rcases h with ⟨q, r, hq, hr, rfl⟩ | ⟨rfl, hnone⟩
  · have hne : q ≠ p := by
      rintro rfl
      exact hold r hq hr
    exact .inl ⟨q, r, by rwa [AList.lookup_insert_ne hne], hr, rfl⟩
  · refine .inr ⟨rfl, fun q r hq => ?_⟩
    by_cases hqp : q = p
    · subst hqp
      rw [AList.lookup_insert] at hq
      exact Option.some.inj hq ▸ hnew
    · rw [AList.lookup_insert_ne hqp] at hq
      exact hnone q r hq

/-- A publication is over that sends to nobody. -/
theorem Unfinished.erase (h : Unfinished running x w)
    (hold : ∀ r, running.lookup p = some r → r.sendingTo = none) :
    Unfinished (running.erase p) x w := by
  rcases h with ⟨q, r, hq, hr, rfl⟩ | ⟨rfl, hnone⟩
  · have hne : q ≠ p := by
      rintro rfl
      rw [hold r hq] at hr
      cases hr
    exact .inl ⟨q, r, by rwa [AList.lookup_erase_ne hne], hr, rfl⟩
  · refine .inr ⟨rfl, fun q r hq => ?_⟩
    by_cases hqp : q = p
    · subst hqp
      rw [AList.lookup_erase] at hq
      cases hq
    · rw [AList.lookup_erase_ne hqp] at hq
      exact hnone q r hq

theorem OneSend.insert (h : OneSend running) (hnew : ∀ c, run'.sendingTo = some c →
    ∀ q r, q ≠ p → running.lookup q = some r → r.sendingTo ≠ some c) :
    OneSend (running.insert p run') := by
  intro c q q' r r' hq hr hq' hr'
  by_cases hqp : q = p
  · by_cases hqp' : q' = p
    · rw [hqp, hqp']
    · rw [hqp, AList.lookup_insert] at hq
      rw [AList.lookup_insert_ne hqp'] at hq'
      obtain rfl := Option.some.inj hq
      exact absurd hr' (hnew c hr q' r' hqp' hq')
  · rw [AList.lookup_insert_ne hqp] at hq
    by_cases hqp' : q' = p
    · rw [hqp', AList.lookup_insert] at hq'
      obtain rfl := Option.some.inj hq'
      exact absurd hr (hnew c hr' q r hqp hq)
    · rw [AList.lookup_insert_ne hqp'] at hq'
      exact h c q q' r r' hq hr hq' hr'

theorem OneSend.erase (h : OneSend running) (p : Int) : OneSend (running.erase p) := by
  have hlookup : ∀ {q r}, (running.erase p).lookup q = some r → running.lookup q = some r := by
    intro q r hq
    by_cases hqp : q = p
    · subst hqp
      rw [AList.lookup_erase] at hq
      cases hq
    · rwa [AList.lookup_erase_ne hqp] at hq
  intro c q q' r r' hq hr hq' hr'
  exact h c q q' r r' (hlookup hq) hr (hlookup hq') hr'

end

theorem LinkRefines.mono {part part' : List UInt8 → Prop} {b : Box Int UInt32 Payload}
    (h : LinkRefines e N part link b) (hpart : ∀ w, part w → part' w) :
    LinkRefines e N part' link b := by
  obtain ⟨w, hw, hdown⟩ := h.down
  exact ⟨h.up, h.small, ⟨w, hpart w hw, hdown⟩, h.received⟩

theorem OptionRel.mono {α β : Type} {R R' : α → β → Prop} {x : Option α} {y : Option β}
    (h : OptionRel R x y) (hR : ∀ a b, R a b → R' a b) : OptionRel R' x y := by
  cases x with
  | none =>
    obtain rfl := h.of_none rfl
    trivial
  | some a =>
    obtain ⟨b, rfl, hab⟩ := h.of_some rfl
    exact hR a b hab

/-- What is related stays so when both sides change at one place. -/
theorem OptionRel.update {α β : Type} {R : Int → α → β → Prop} {f : Int → Option α}
    {g : Int → Option β} {c : Int} {a : Option α} {b : Option β} (hc : OptionRel (R c) a b)
    (h : ∀ x, x ≠ c → OptionRel (R x) (f x) (g x)) (x : Int) :
    OptionRel (R x) (Function.update f c a x) (Function.update g c b x) := by
  by_cases hx : x = c
  · subst hx
    rwa [Function.update_self, Function.update_self]
  · rw [Function.update_of_ne hx, Function.update_of_ne hx]
    exact h x hx

/-! ## What changes on both sides -/

/-- Where no publication runs no message is on its way. -/
theorem Refines.idle (h : Refines e N s S) (hrun : s.running.keys = []) : S.Idle := by
  intro p
  refine (h.running p).of_none (AList.lookup_eq_none.mpr fun hin => ?_)
  rw [AList.mem_keys, hrun] at hin
  cases hin

variable (fd) in
/-- A connection changes on both sides. -/
theorem Refines.setLink (h : Refines e N s S) {link : Option Link}
    {b : Option (Box Int UInt32 Payload)}
    (hrel : OptionRel (LinkRefines e N (Unfinished s.running fd)) link b) :
    Refines e N (s.setLink fd link) (S.setBox fd b) where
  tree := h.tree
  links := hrel.update fun x _ => h.links x
  running := h.running
  oneSend := h.oneSend

/-- So do the registrations. -/
theorem Refines.setTree (h : Refines e N s S) {t : StdClientTree} {R : Registrations}
    (ht : t.Registers R) : Refines e N { s with tree := t } { S with interests := R } where
  tree := ht
  links := h.links
  running := h.running
  oneSend := h.oneSend

/-- And what runs, with the connections it sends to. -/
theorem Refines.insert (h : Refines e N s S) {run : Publication} {m : Payload × Set Int}
    (hrel : RunRefines e N run m) (hone : OneSend (s.running.insert fd run))
    {links : Int → Option Link} {boxes : Int → Option (Box Int UInt32 Payload)}
    (hlinks : ∀ x, OptionRel (LinkRefines e N (Unfinished (s.running.insert fd run) x)) (links x)
      (boxes x)) :
    Refines e N { s with links := links, running := s.running.insert fd run }
      (Broker.setRunning { S with boxes := boxes } fd (some m)) where
  tree := h.tree
  links := hlinks
  oneSend := hone
  running x := by
    change OptionRel _ (AList.lookup x (s.running.insert fd run))
      (Function.update S.running fd (some m) x)
    by_cases hx : x = fd
    · subst hx
      rw [AList.lookup_insert, Function.update_self]
      exact hrel
    · rw [AList.lookup_insert_ne hx, Function.update_of_ne hx]
      exact h.running x

theorem Refines.erase (h : Refines e N s S)
    (hdone : ∀ run, s.running.lookup fd = some run → run.sendingTo = none) :
    Refines e N { s with running := s.running.erase fd } (S.setRunning fd none) where
  tree := h.tree
  links x := (h.links x).mono fun _ _ hlink => hlink.mono fun _ hw => hw.erase hdone
  oneSend := h.oneSend.erase fd
  running x := by
    change OptionRel _ (AList.lookup x (s.running.erase fd))
      (Function.update S.running fd none x)
    by_cases hx : x = fd
    · subst hx
      rw [AList.lookup_erase, Function.update_self]
      trivial
    · rw [AList.lookup_erase_ne hx, Function.update_of_ne hx]
      exact h.running x

/-- What was published for whom is the broker's to tell. -/
theorem Refines.post (h : Refines e N s S) (m : Post Int Payload) (who : Set Int) :
    Refines e N s (S.post m who) where
  tree := h.tree
  links x := by
    have hx := h.links x
    cases hl : s.links x with
    | none =>
      simp only [Broker.post, hx.of_none hl, Option.map_none]
      trivial
    | some link =>
      obtain ⟨b, hb, hrel⟩ := hx.of_some hl
      simp only [Broker.post, hb, Option.map_some]
      by_cases hin : x ∈ who
      · rw [if_pos hin]
        exact ⟨hrel.up, hrel.small, hrel.down, hrel.received⟩
      · rw [if_neg hin]
        exact hrel
  running := h.running
  oneSend := h.oneSend

/-- A client is disconnected. -/
theorem Refines.close (h : Refines e N s S) (hclose : s.closeClientConnection fd = some s') :
    ∃ S', Broker.Step S (.close fd) S' ∧ Refines e N s' S' := by
  unfold Bus.closeClientConnection at hclose
  split at hclose
  · next hrun =>
    obtain rfl := Option.some.inj hclose
    refine ⟨_, .close (h.idle hrun), ?_⟩
    refine (h.setLink fd optionRel_none).setTree fun x K => ?_
    change x ∈ (s.tree.head.removeFromTree fd).clientsAt K ↔ _
    rw [StdNode.clientsAt_removeFromTree, Finset.mem_erase, h.tree x K]
    exact and_comm
  · cases hclose

theorem frames_append (e : Endian) (ms ms' : List Message) :
    frames e (ms ++ ms') = frames e ms ++ frames e ms' := by
  simp [frames]

/-- A client has put requests on its stream. -/
theorem Refines.request (h : Refines e N s S) (hlink : s.links fd = some link) {p : Peer}
    (rs : List ClientRequest) (hrs : ∀ r ∈ rs, r.Ok N)
    (hbytes : p.bytes = link.up ++ frames e (rs.map (·.message e))) :
    ∃ S', Broker.Step S (.request fd (rs.map (·.request))) S' ∧
      Refines e N (s.setLink fd (some { link with up := p.bytes })) S' := by
  obtain ⟨b, hb, hrel⟩ := (h.links fd).of_some hlink
  refine ⟨_, .request hb, h.setLink fd ?_⟩
  obtain ⟨old, hold, hup, hreq⟩ := hrel.up
  refine ⟨⟨old ++ rs, ?_, ?_, ?_⟩, hrel.small, hrel.down, hrel.received⟩
  · intro r hr
    rcases List.mem_append.mp hr with hr | hr
    · exact hold r hr
    · exact hrs r hr
  · rw [List.map_append, frames_append, ← hup]
    exact hbytes
  · rw [List.map_append, ← hreq]

/-- The calls by which clients register and deregister. -/
theorem Refines.sendKeyOp (h : Refines e N s S) (hlink : s.links fd = some link) {op : Nat}
    (toRequest : StdEventKey → ClientRequest)
    (hmsg : ∀ key, (toRequest key).message e = ⟨op, [key.bytes e]⟩)
    (hok : ∀ key, key.len ≤ STD_EVENT_KEY_MAX → (toRequest key).Ok N) {keys : List StdEventKey}
    (hkeys : ∀ key ∈ keys, key.len ≤ STD_EVENT_KEY_MAX) {as : List Answer} (has : Steady as)
    (hstep : s.sent fd link (clientSendKeyOp e op ⟨link.up, as⟩ keys) = some s') :
    ∃ S', Broker.Step S (.request fd (keys.map fun key => (toRequest key).request)) S' ∧
      Refines e N s' S' := by
  obtain ⟨p, hrun, hbytes⟩ := clientSendKeyOp_spec (e := e) hmsg keys (p := ⟨link.up, as⟩) has
  rw [Bus.sent, hrun] at hstep
  obtain rfl := Option.some.inj hstep
  have hreq := h.request hlink (p := p) (keys.map toRequest) ?_ ?_
  · simpa [List.map_map, Function.comp_def] using hreq
  · intro r hr
    obtain ⟨key, hkey, rfl⟩ := List.mem_map.mp hr
    exact hok key (hkeys key hkey)
  · rw [hbytes, List.map_map]
    rfl

variable (junk fd) in
/-- A job for a client's data takes the client's next request. -/
theorem eventSomeData_request {r : ClientRequest} (hr : r.Ok N) (hN : 76 + N < 2 ^ 31)
    {t : StdClientTree} {R : Registrations} (ht : t.Registers R) (rest : List UInt8)
    {as : List Answer} (has : Benign STD_MAX_EINTR as) (vector : Mem) (send : Send Unit) :
    ∃ eff vector' p', eventSomeData e junk fd send ⟨(r.message e).frame e ++ rest, as⟩
        (some vector) t () = .ok (eff, some vector', p') ∧
      Handled e fd t R r eff ∧ p'.bytes = rest := by
  have hsize := r.size_le (e := e) hr
  have hframe : ((r.message e).frame e ++ rest) =
      ipcHeader e ((r.message e).content e).length ++ (r.message e).content e ++ rest := by
    rw [← frame_eq]
  obtain ⟨p', hrecv, hrest, -⟩ := recv_spec junk ((r.message e).content e) rest
    (p := ⟨(r.message e).frame e ++ rest, as⟩) has (by rw [Message.length_content]; omega) hframe
    vector true (.inr rfl)
  obtain ⟨eff, hrun, hhandled⟩ := handleFrame_request (e := e) fd
    (vector.drop ((r.message e).content e).length)
    (overlay vector ((r.message e).content e)).length ht hr hN send
    (by rw [overlay, List.length_append, Message.length_content]; omega)
  refine ⟨eff, overlay vector ((r.message e).content e), p', ?_, hhandled, hrest⟩
  change handleFrame e fd send _ (overlay vector ((r.message e).content e)) t () = _ at hrun
  rw [eventSomeData, hrecv, exec_bind_ok]
  dsimp only
  rw [if_neg (not_not.mpr rfl), hrun]
  rfl

variable (junk) in
/-- What a job finds where there are bytes to read: the client's next request. -/
theorem Refines.next (h : Refines e N s S) (hN : 76 + N < 2 ^ 31) (hlink : s.links fd = some link)
    {as : List Answer} (has : Benign STD_MAX_EINTR as) (hne : link.up ≠ []) :
    ∃ (b : Box Int UInt32 Payload) (r : ClientRequest) (rest : List (Request UInt32 Payload))
      (eff : Effect Unit) (vector : Mem) (p : Peer),
      S.boxes fd = some b ∧ b.requests = r.request :: rest ∧ r.Ok N ∧
      eventSomeData e junk fd (fun w _ => (true, w)) ⟨link.up, as⟩ (some link.vector) s.tree () =
        .ok (eff, some vector, p) ∧
      Handled e fd s.tree S.interests r eff ∧ p.bytes.length < link.up.length ∧
      LinkRefines e N (Unfinished s.running fd) { link with up := p.bytes, vector := vector }
        { b with requests := rest } := by
  obtain ⟨b, hb, hrel⟩ := (h.links fd).of_some hlink
  obtain ⟨rs, hrs, hup, hreq⟩ := hrel.up
  cases rs with
  | nil => exact absurd hup hne
  | cons r rs =>
    have hrest : link.up = (r.message e).frame e ++ frames e (rs.map (·.message e)) := hup
    have hok := hrs r List.mem_cons_self
    obtain ⟨eff, vector, p, hrun, hhandled, hbytes⟩ := eventSomeData_request junk fd hok hN
      h.tree (frames e (rs.map (·.message e))) has link.vector fun w _ => (true, w)
    rw [← hrest] at hrun
    refine ⟨b, r, _, eff, vector, p, hb, hreq, hok, hrun, hhandled, ?_,
      ⟨⟨rs, fun r' hr' => hrs r' (List.mem_cons_of_mem _ hr'), hbytes, rfl⟩, hrel.small,
        hrel.down, hrel.received⟩⟩
    rw [hrest, hbytes, List.length_append, Message.frame, List.length_append, length_ipcHeader]
    omega

/-- The broker takes a request when its job begins. -/
theorem Refines.handle (h : Refines e N s S) (hN : 76 + N < 2 ^ 31)
    (hlink : s.links fd = some link) {as : List Answer} (has : Benign STD_MAX_EINTR as)
    (hstep : s.handle e junk fd link as = some s') :
    ∃ S', Broker.Step S (.handle fd) S' ∧ Refines e N s' S' := by
  unfold Bus.handle at hstep
  split at hstep
  · cases hstep
  rename_i hready
  rw [not_or, ← ne_eq] at hready
  obtain ⟨hne, hfree⟩ := hready
  obtain ⟨b, r, rest, eff, vector, p, hb, hreq, hok, hrun, hhandled, -, hlink'⟩ :=
    h.next junk hN hlink has hne
  rw [hrun] at hstep
  have hset := h.setLink fd (optionRel_some hlink')
  cases hhandled with
  | @register key t' ht' =>
    dsimp only at hstep
    rw [if_neg (by decide)] at hstep
    split at hstep
    · next hidle =>
      obtain rfl := Option.some.inj hstep
      exact ⟨_, .register hb hreq (h.idle hidle), hset.setTree ht'⟩
    · cases hstep
  | @deregister key t' ht' =>
    dsimp only at hstep
    rw [if_neg (by decide)] at hstep
    split at hstep
    · next hidle =>
      obtain rfl := Option.some.inj hstep
      exact ⟨_, .deregister hb hreq (h.idle hidle), hset.setTree ht'⟩
    · cases hstep
  | @publish key data log hnodup hmem =>
    dsimp only at hstep
    rw [if_neg (by decide)] at hstep
    obtain rfl := Option.some.inj hstep
    have hnone : S.running fd = none :=
      (h.running fd).of_none (AList.lookup_eq_none.mpr hfree)
    have hfirst : s.running.lookup fd = none := AList.lookup_eq_none.mpr hfree
    have hquiet : ∀ x, (⟨msgBytes e key data, log.map Prod.fst, [], []⟩ :
        Publication).sendingTo ≠ some x := fun x hx =>
      (Publication.sendingTo_eq_some.mp hx).1 rfl
    have hpost := hset.post ⟨fd, (key, data)⟩ (S.recipients key.toList)
    refine ⟨_, .publish hb hreq hnone, hpost.insert
      ⟨rfl, hok.2, hmem, hnodup, fun _ => rfl, fun hne => absurd rfl hne⟩
      (h.oneSend.insert fun c hc => absurd hc (hquiet c)) fun x => (hpost.links x).mono
        fun _ _ hlink => hlink.mono fun _ hw => hw.insert (fun r hr => ?_) (hquiet x)⟩
    cases hfirst.symm.trans hr

/-- The frame of what is to be published. -/
theorem publish_frame_size {key : StdEventKey} {data : List UInt8} (hdata : data.length ≤ N)
    (hN : 76 + N < 2 ^ 31) :
    (⟨event_serv_msg_t_PUBLISH, [msgBytes e key data]⟩ : Message).size < 2 ^ 32 := by
  rw [size_eq, List.flatten_singleton, length_msgBytes]
  omega

theorem frame_ne_nil (m : Message) : m.frame e ≠ [] := by
  intro hnil
  have hlen := congrArg List.length hnil
  rw [Message.frame, List.length_append, length_ipcHeader] at hlen
  simp at hlen

/-- A send begins: the broker does nothing yet. -/
theorem Refines.send (h : Refines e N s S) (hN : 76 + N < 2 ^ 31) {c : Int} {as : List Answer}
    (hl : (BusLabel.send fd c as).Allowed N s) (hstep : s.send e fd c as = some s') :
    Refines e N s' S := by
  have hfree : ∀ q r, s.running.lookup q = some r → r.sendingTo ≠ some c :=
    forall_entries_iff.mp fun y hy => hl y hy
  unfold Bus.send at hstep
  split at hstep
  rotate_left
  · cases hstep
  rename_i msg c' todo written hrun
  split at hstep
  · cases hstep
  rename_i hc
  obtain ⟨hc, -⟩ := not_or.mp hc
  obtain rfl : c' = c := not_not.mp hc
  obtain ⟨⟨⟨key, data⟩, left⟩, hS, hmsg, hsmall, hleft, hnodup, -, -⟩ :=
    (h.running fd).of_some hrun
  obtain rfl : msg = msgBytes e key data := hmsg
  obtain ⟨rc, p, hsend, hbytes, -⟩ :=
    send_spec (e := e) (p := ⟨[], as⟩) (publish_frame_size hsmall hN)
  rw [hsend] at hstep
  split at hstep
  rotate_left
  · cases hstep
  next hok =>
  obtain ⟨rfl, rfl⟩ := Prod.mk.inj (Except.ok.inj hok)
  obtain rfl := Option.some.inj hstep
  have hframe : p.bytes = ((ClientRequest.publish key data).message e).frame e :=
    (hbytes rfl).trans (List.nil_append _)
  have hself : (S.setRunning fd (some ((key, data), left))) = S := by
    rw [Broker.setRunning, ← hS, Function.update_eq_self]
  have hbegun : RunRefines e N ⟨msgBytes e key data, c' :: todo, [], p.bytes⟩ ((key, data), left) :=
    ⟨rfl, hsmall, hleft, hnodup, fun _ => rfl, fun _ => ⟨by simp, hframe⟩⟩
  rw [← hself]
  refine h.insert hbegun (h.oneSend.insert fun x hx q r _ hq => ?_) fun x =>
    (h.links x).mono fun _ _ hlink => hlink.mono fun w hw => ?_
  · obtain rfl : c' = x := Option.some.inj (Publication.sendingTo_eq_some.mp hx).2
    exact hfree q r hq
  · by_cases hx : x = c'
    · -- nothing of the send is on the stream yet
      subst hx
      rcases hw with ⟨q, r, hq, hr, -⟩ | ⟨rfl, -⟩
      · exact absurd hr (hfree q r hq)
      · refine .inl ⟨fd, _, AList.lookup_insert .., ?_, rfl⟩
        exact Publication.sendingTo_eq_some.mpr ⟨hframe ▸ frame_ne_nil _, rfl⟩
    · refine hw.insert (fun r hr hto => ?_) fun hto => ?_
      · rw [hrun] at hr
        obtain rfl := Option.some.inj hr
        exact (Publication.sendingTo_eq_some.mp hto).1 rfl
      · exact hx (Option.some.inj (Publication.sendingTo_eq_some.mp hto).2).symm

section
variable {msg : Mem} {c : Int} {todo : List Int} {written rest : List UInt8} {m : Payload × Set Int}

/-- A part of what is left of a send is put on the stream. -/
theorem RunRefines.part (h : RunRefines e N ⟨msg, c :: todo, written, rest⟩ m) {n : Nat}
    (hn : n < rest.length) :
    RunRefines e N ⟨msg, c :: todo, written ++ rest.take n, rest.drop n⟩ m := by
  have hmore : rest.drop n ≠ [] := by
    rw [ne_eq, List.drop_eq_nil_iff]
    omega
  have hrest : rest ≠ [] := List.ne_nil_of_length_pos (by omega)
  refine ⟨h.msg, h.small, h.left, h.nodup, fun hnil => absurd hnil hmore, fun _ => ⟨by simp, ?_⟩⟩
  dsimp only
  rw [List.append_assoc, List.take_append_drop]
  exact (h.sending hrest).2

/-- The send to the first client is over. -/
theorem RunRefines.over (h : RunRefines e N ⟨msg, c :: todo, written, rest⟩ m) :
    RunRefines e N ⟨msg, todo, [], []⟩ (m.1, m.2 \ {c}) := by
  have hnodup := List.nodup_cons.mp h.nodup
  refine ⟨h.msg, h.small, fun x => ?_, hnodup.2, fun _ => rfl, fun hne => absurd rfl hne⟩
  have hx := h.left x
  dsimp only at hx ⊢
  rw [List.mem_cons] at hx
  rw [Set.mem_sdiff, ← hx, Set.mem_singleton_iff]
  constructor
  · intro hin
    exact ⟨.inr hin, fun heq => hnodup.1 (heq ▸ hin)⟩
  · rintro ⟨heq | hin, hne⟩
    · exact absurd heq hne
    · exact hin

end

/-- Bytes of a send are put on the stream; with the last of them the broker sends the message. -/
theorem Refines.write (h : Refines e N s S) {c : Int} {n : Nat} {last : Bool}
    (hstep : s.write fd c n last = some s') :
    ∃ S', Follows Broker.Step S (BusLabel.write fd c n last).spec S' ∧ Refines e N s' S' := by
  unfold Bus.write at hstep
  split at hstep
  rotate_left
  · cases hstep
  rename_i msg c' todo written rest link hrun hlink
  split at hstep
  · cases hstep
  rename_i hcond
  simp only [not_or, not_not, Nat.not_lt] at hcond
  obtain ⟨rfl, hpos, hle, hlast⟩ := hcond
  obtain rfl := Option.some.inj hstep
  obtain ⟨b, hb, hrel⟩ := (h.links c').of_some hlink
  obtain ⟨⟨⟨key, data⟩, left⟩, hS, hrunrel⟩ := (h.running fd).of_some hrun
  have hrest : rest ≠ [] := List.ne_nil_of_length_pos (by omega)
  have hframe := (hrunrel.sending hrest).2
  have hto : (⟨msg, c' :: todo, written, rest⟩ : Publication).sendingTo = some c' :=
    Publication.sendingTo_eq_some.mpr ⟨hrest, rfl⟩
  obtain ⟨w, hw, hdown⟩ := hrel.down
  obtain rfl : w = written := h.oneSend.written hrun hto hw
  have hothers : ∀ q r, q ≠ fd → s.running.lookup q = some r → r.sendingTo ≠ some c' :=
    fun q r hne hq hr => hne (h.oneSend c' q fd r _ hq hr hrun hto)
  -- the streams to the other clients are as before
  have hsame : ∀ run', (∀ x, x ≠ c' → run'.sendingTo ≠ some x) → ∀ x, x ≠ c' →
      OptionRel (LinkRefines e N (Unfinished (s.running.insert fd run') x)) (s.links x)
        (S.boxes x) := by
    intro run' hnew x hx
    refine (h.links x).mono fun _ _ hlink => hlink.mono fun _ hw =>
      hw.insert (fun r hr hto' => ?_) (hnew x hx)
    rw [hrun] at hr
    obtain rfl := Option.some.inj hr
    exact hx (Option.some.inj (hto.symm.trans hto')).symm
  by_cases hall : n = rest.length
  · obtain rfl : last = true := by rw [hlast, hall]; simp
    have hquiet : ∀ x, (⟨msg, todo, [], []⟩ : Publication).sendingTo ≠ some x := fun x hx =>
      (Publication.sendingTo_eq_some.mp hx).1 rfl
    refine ⟨_, .send hS ((hrunrel.left c').mp List.mem_cons_self) hb, ?_⟩
    refine h.insert hrunrel.over (h.oneSend.insert fun x hx => absurd hx (hquiet x))
      (.update ?_ (hsame _ fun x _ => hquiet x))
    refine ⟨hrel.up, fun m hm => ?_, ⟨[], .inr ⟨rfl, fun q r hq => ?_⟩, ?_⟩, hrel.received⟩
    · rcases List.mem_append.mp hm with hm | hm
      · exact hrel.small m hm
      · rw [List.mem_singleton.mp hm]
        exact hrunrel.small
    · by_cases hqp : q = fd
      · rw [hqp, AList.lookup_insert] at hq
        exact Option.some.inj hq ▸ hquiet c'
      · rw [AList.lookup_insert_ne hqp] at hq
        exact hothers q r hqp hq
    · dsimp only at hframe ⊢
      rw [hdown, hall, List.take_length, List.append_assoc, hframe, List.map_append,
        frames_append, List.append_nil]
      simp [frames, postMessage]
  · obtain rfl : last = false := by rw [hlast]; simpa using hall
    have hpart := hrunrel.part (show n < rest.length by omega)
    have hto' : (⟨msg, c' :: todo, w ++ rest.take n, rest.drop n⟩ : Publication).sendingTo =
        some c' := Publication.sendingTo_eq_some.mpr
      ⟨by rw [ne_eq, List.drop_eq_nil_iff]; omega, rfl⟩
    have hself : (Broker.setRunning { S with boxes := Function.update S.boxes c' (some b) } fd
        (some ((key, data), left))) = S := by
      rw [Broker.setRunning, ← hS, Function.update_eq_self, ← hb, Function.update_eq_self]
    refine ⟨S, rfl, ?_⟩
    rw [← hself]
    refine h.insert hpart (h.oneSend.insert fun x hx q r hne hq => ?_) (.update ?_ (hsame _ ?_))
    · obtain rfl : c' = x := Option.some.inj (hto'.symm.trans hx)
      exact hothers q r hne hq
    · refine ⟨hrel.up, hrel.small, ⟨_, .inl ⟨fd, _, AList.lookup_insert .., hto', rfl⟩, ?_⟩,
        hrel.received⟩
      dsimp only
      rw [hdown, List.append_assoc]
    · exact fun x hx hto'' => hx (Option.some.inj (hto'.symm.trans hto'')).symm

/-! ## The receiving calls -/

/-- A part of a frame is no frame. -/
theorem not_frameReady {m : Message} (hm : m.size < 2 ^ 32) {w rest : List UInt8}
    (h : w ++ rest = m.frame e) (hrest : rest ≠ []) : ¬ frameReady e w := by
  have hlen := congrArg List.length h
  have hpos := List.length_pos_of_ne_nil hrest
  rw [List.length_append, Message.frame, List.length_append, length_ipcHeader,
    Message.length_content] at hlen
  intro hready
  rw [frameReady, Bool.and_eq_true, decide_eq_true_eq, decide_eq_true_eq, sizeofIpcData] at hready
  obtain ⟨hheader, hall⟩ := hready
  have hsize : (w.drop 12).take 4 = e.bytes 4 m.size := by
    have hword : ((w ++ rest).drop 12).take 4 = (w.drop 12).take 4 := by
      rw [List.drop_append_of_le_length (by omega), List.take_append_of_le_length (by simp; omega)]
    rw [← hword, h, Message.frame, ipcHeader, List.append_assoc, List.drop_left' (by simp),
      List.take_left' (Endian.length_bytes ..)]
  rw [hsize, Endian.nat_bytes hm] at hall
  omega

/-- What an unfinished send has put on a stream is no frame. -/
theorem Refines.not_frameReady (h : Refines e N s S) (hN : 76 + N < 2 ^ 31) {w : List UInt8}
    (hw : Unfinished s.running fd w) : ¬ frameReady e w := by
  rcases hw with ⟨p, run, hrun, hto, rfl⟩ | ⟨rfl, -⟩
  · obtain ⟨m, -, hrel⟩ := (h.running p).of_some hrun
    obtain ⟨hrest, -⟩ := Publication.sendingTo_eq_some.mp hto
    refine Event.not_frameReady ?_ (hrel.sending hrest).2 hrest
    exact publish_frame_size hrel.small hN
  · simp [frameReady, sizeofIpcData]

/-- A call takes the next message of a connection. -/
theorem Refines.receive (h : Refines e N s S) (hN : 76 + N < 2 ^ 31)
    (hlink : s.links fd = some link) (hready : frameReady e link.down) {link' : Link}
    (hup : link'.up = link.up)
    (htake : ∀ m rest, m.payload.2.length ≤ N →
      link.down = (postMessage e m).frame e ++ rest →
      link'.down = rest ∧ link'.received = link.received ++ [delivered e m]) :
    ∃ S', Broker.Step S (.receive fd) S' ∧ Refines e N (s.setLink fd (some link')) S' := by
  obtain ⟨b, hb, hrel⟩ := (h.links fd).of_some hlink
  obtain ⟨w, hw, hdown⟩ := hrel.down
  cases hin : b.inbox with
  | nil =>
    rw [hdown, hin] at hready
    exact absurd hready (h.not_frameReady hN hw)
  | cons m rest =>
    rw [hin, List.map_cons] at hdown
    have hsmall := hrel.small
    rw [hin] at hsmall
    obtain ⟨hleft, hgot⟩ := htake m (frames e (rest.map (postMessage e)) ++ w)
      (hsmall m List.mem_cons_self) (hdown.trans (List.append_assoc ..))
    refine ⟨_, .receive hb hin, h.setLink fd ?_⟩
    refine ⟨hup ▸ hrel.up, fun m' hm' => hsmall m' (List.mem_cons_of_mem _ hm'), ⟨w, hw, hleft⟩, ?_⟩
    rw [hgot, hrel.received, List.map_append]
    rfl

variable (junk) in
/-- What `std_client_wait_for_event_data` delivers of a message with room for it. -/
theorem waitForEventData_spec {m : Post Int Payload} {len : Nat} {p : Peer} {rest : List UInt8}
    (hlen : m.payload.2.length + sizeofEventMsg ≤ len) (hdata : m.payload.2.length < 2 ^ 31)
    (hp : p.Patient) (hbytes : p.bytes = (postMessage e m).frame e ++ rest) :
    ∃ p', stdClientWaitForEventData e junk p len = .ok (.ok, (delivered e m).2.1,
      (delivered e m).2.2, p') ∧ p'.bytes = rest := by
  have hpub := publishes_message e m.payload.1 m.payload.2
  have hm := hpub.size_eq (length_keyBytes e _)
  have hsize : (postMessage e m).size < 2 ^ 32 := by
    rw [postMessage, hm]
    omega
  obtain ⟨p', hrun, hrest, -⟩ := recvMsg_spec junk hsize len hp hbytes
  rw [postMessage, hpub.msgOutcome (length_keyBytes e _) hsize,
    if_neg (by rw [sizeofEventMsg] at hlen; omega), if_pos hdata] at hrun hrest
  exact ⟨p', hrun, hrest⟩

/-- What a client reads in its vector after a frame was received into it. -/
theorem readMsg_overlay (e : Endian) (buff : Mem) {m : Post Int Payload}
    (hdata : m.payload.2.length < 2 ^ 32) :
    readMsg e (overlay buff ((postMessage e m).content e)) =
      .ok ((delivered e m).2.1, (delivered e m).2.2) := by
  obtain ⟨_, key, data⟩ := m
  generalize hvec : overlay buff _ = vec
  have hhead : (key.bytes e ++ e.bytes 4 data.length).length = 72 := by simp
  have hvec' : vec = e.bytes 4 event_serv_msg_t_PUBLISH ++ msgBytes e key data ++
      buff.drop (76 + data.length) := by
    rw [← hvec, overlay, Message.length_content, size_eq]
    simp only [postMessage, ClientRequest.message, Message.content, List.flatten_singleton,
      length_msgBytes]
    rw [show 4 + (72 + data.length) = 76 + data.length by omega]
    rfl
  have hop : load32 e vec 0 = .ok event_serv_msg_t_PUBLISH := by
    refine load32_op ⟨[], msgBytes e key data ++ buff.drop (76 + data.length), ?_, rfl⟩ (by decide)
    rw [hvec', List.nil_append, List.append_assoc]
  have hbig : ¬ vec.length < sizeofServMsg := by
    rw [hvec', sizeofServMsg, List.length_append, List.length_append, Endian.length_bytes]
    omega
  have hdrop : vec.drop sizeofServMsg = msgBytes e key data ++ buff.drop (76 + data.length) := by
    rw [hvec', List.append_assoc]
    exact List.drop_left' (Endian.length_bytes ..)
  have hat : Mem.At (vec.drop sizeofServMsg) 0 (msgBytes e key data) :=
    ⟨[], buff.drop (76 + data.length), hdrop, rfl⟩
  obtain ⟨hmsg, hrest⟩ := Mem.at_append.mp hat
  have hloadmsg := hmsg.load
  have hloaddata := hrest.load
  rw [hhead] at hloadmsg
  rw [hhead] at hloaddata
  have hdlen : e.nat (((key.bytes e ++ e.bytes 4 data.length).drop sizeofEventKey).take 4) =
      data.length := by
    rw [sizeofEventKey, List.drop_left' (length_keyBytes e key),
      List.take_of_length_le (by rw [Endian.length_bytes]), Endian.nat_bytes hdata]
  rw [readMsg, stdEventMsgFromBuff, if_neg hbig, hop, exec_bind_ok, if_neg (not_not.mpr rfl)]
  rw [exec_pure, exec_bind_ok]
  dsimp only
  rw [sizeofEventMsg, hloadmsg, exec_bind_ok, hdlen]
  rw [Nat.zero_add] at hloaddata
  rw [hloaddata]
  rfl

variable (junk) in
/-- What `std_client_wait_for_event` puts in a vector that may grow. -/
theorem waitForEvent_spec (buff : Mem) {m : Post Int Payload} {p : Peer} {rest : List UInt8}
    (hdata : 76 + m.payload.2.length < 2 ^ 31) (hp : p.Patient)
    (hbytes : p.bytes = (postMessage e m).frame e ++ rest) :
    ∃ p', stdClientWaitForEvent e junk p buff false =
      .ok (.ok, overlay buff ((postMessage e m).content e), p') ∧ p'.bytes = rest := by
  have hm : (postMessage e m).size = 76 + m.payload.2.length :=
    (publishes_message e m.payload.1 m.payload.2).size_eq (length_keyBytes e _)
  obtain ⟨p', hrun, hrest, -⟩ := recv_spec junk ((postMessage e m).content e) rest hp
    (by rw [Message.length_content, hm]; exact hdata) (by rw [hbytes, frame_eq]) buff true
    (.inr rfl)
  exact ⟨p', hrun, hrest⟩

/-! ## Steps and runs -/

/-- What `std_client_publish_msg_data` sends is a client's request to publish. -/
theorem publishMsgData_spec (key : StdEventKey) {data : List UInt8}
    (hdata : 76 + data.length < 2 ^ 31) {p : Peer} (hp : Steady p.answers) :
    ∃ p', stdClientPublishMsgData e p (key.bytes e) data = .ok (.ok, p') ∧
      p'.bytes = p.bytes ++ ((ClientRequest.publish key data).message e).frame e := by
  obtain ⟨m, ⟨hop, hflat⟩, hrun⟩ := stdClientPublishMsgData_eq e p (key.bytes e) data
  have hframe : m.frame e = ((ClientRequest.publish key data).message e).frame e := by
    simp only [Message.frame, Message.size, Message.content, hop, hflat, ClientRequest.message,
      List.flatten_singleton, msgBytes]
  have hsize : m.size < 2 ^ 32 := by
    rw [size_eq, hflat]
    simp only [List.length_append, Endian.length_bytes, length_keyBytes]
    omega
  obtain ⟨p', hsend, hbytes, -⟩ := send_steady (e := e) hp hsize
  exact ⟨p', hrun.trans hsend, hframe ▸ hbytes⟩

theorem Refines.connect (h : Refines e N s S) (hstep : s.step e junk (.connect fd) = some s') :
    ∃ S', Broker.Step S (.connect fd) S' ∧ Refines e N s' S' := by
  rw [Bus.step] at hstep
  split at hstep
  · next hnone =>
    obtain rfl := Option.some.inj hstep
    have hbox := (h.links fd).of_none (Option.isNone_iff_eq_none.mp hnone.1)
    exact ⟨_, .connect hbox, h.setLink fd ⟨⟨[], by simp, rfl, rfl⟩, by simp [Box.new],
      ⟨[], unfinished_nil hnone.2 fd, rfl⟩, rfl⟩⟩
  · cases hstep

theorem Refines.publishMsg (hN : 76 + N < 2 ^ 31) (h : Refines e N s S) {key : StdEventKey}
    {data : List UInt8} {as : List Answer} (hl : (BusLabel.publish fd key data as).Allowed N s)
    (hstep : s.step e junk (.publish fd key data as) = some s') :
    ∃ S', Broker.Step S (.request fd [(ClientRequest.publish key data).request]) S' ∧
      Refines e N s' S' := by
  obtain ⟨link, hlink, hsent⟩ := Option.bind_eq_some_iff.mp hstep
  obtain ⟨hkey, hdata, has⟩ := hl
  obtain ⟨p, hrun, hbytes⟩ := publishMsgData_spec (e := e) key
    (p := ⟨link.up, as⟩) (show 76 + data.length < 2 ^ 31 by omega) has
  rw [Bus.sent, hrun] at hsent
  obtain rfl := Option.some.inj hsent
  refine h.request hlink [.publish key data] ?_ ?_
  · intro r hr
    rw [List.mem_singleton.mp hr]
    exact ⟨hkey, hdata⟩
  · rw [hbytes]
    simp [frames]

/-- The job has nobody left to send to. -/
theorem Refines.done (h : Refines e N s S) (hstep : s.step e junk (.done fd) = some s') :
    ∃ S', Broker.Step S (.done fd) S' ∧ Refines e N s' S' := by
  rw [Bus.step] at hstep
  split at hstep
  · next msg written rest hrun =>
    obtain rfl := Option.some.inj hstep
    obtain ⟨⟨m, left⟩, hS, hrel⟩ := (h.running fd).of_some hrun
    obtain rfl : left = ∅ := by
      refine Set.eq_empty_of_forall_notMem fun c hc => ?_
      cases (hrel.left c).mpr hc
    refine ⟨_, .done hS, h.erase fun run hrun' => ?_⟩
    rw [hrun] at hrun'
    obtain rfl := Option.some.inj hrun'
    rw [Publication.sendingTo]
    split_ifs
    · rfl
    · rfl
  · cases hstep

theorem Refines.waitForEventData (hN : 76 + N < 2 ^ 31) (h : Refines e N s S) {len : Nat}
    {as : List Answer} (hl : (BusLabel.waitForEventData fd len as).Allowed N s)
    (hstep : s.step e junk (.waitForEventData fd len as) = some s') :
    ∃ S', Broker.Step S (.receive fd) S' ∧ Refines e N s' S' := by
  obtain ⟨link, hlink, hwait⟩ := Option.bind_eq_some_iff.mp hstep
  dsimp only at hwait
  split at hwait
  · cases hwait
  next hready =>
  obtain ⟨⟨rc, msg, data, p⟩, hrun, rfl⟩ := Option.map_eq_some_iff.mp hwait
  replace hrun := exec_eq_ok_of_toOption hrun
  refine h.receive hN hlink (not_not.mp hready) rfl fun m rest hm hdown => ?_
  have hroom := hl.1
  obtain ⟨p', hspec, hrest⟩ := waitForEventData_spec junk (m := m)
    (p := ⟨link.down, as⟩) (show m.payload.2.length + sizeofEventMsg ≤ len by omega) (by omega)
    hl.2 hdown
  rw [hspec] at hrun
  cases hrun
  exact ⟨hrest, rfl⟩

theorem Refines.waitForEvent (hN : 76 + N < 2 ^ 31) (h : Refines e N s S) {as : List Answer}
    (hl : Benign STD_MAX_EINTR as)
    (hstep : s.step e junk (.waitForEvent fd as) = some s') :
    ∃ S', Broker.Step S (.receive fd) S' ∧ Refines e N s' S' := by
  obtain ⟨link, hlink, hwait⟩ := Option.bind_eq_some_iff.mp hstep
  dsimp only at hwait
  split at hwait
  · cases hwait
  next hready =>
  obtain ⟨⟨rc, buff, p⟩, hrun, hwait⟩ := Option.bind_eq_some_iff.mp hwait
  obtain ⟨⟨msg, data⟩, hread, rfl⟩ := Option.map_eq_some_iff.mp hwait
  replace hrun := exec_eq_ok_of_toOption hrun
  replace hread := exec_eq_ok_of_toOption hread
  refine h.receive hN hlink (not_not.mp hready) rfl fun m rest hm hdown => ?_
  obtain ⟨p', hspec, hrest⟩ := waitForEvent_spec junk link.msgBuff
    (p := ⟨link.down, as⟩) (m := m) (by omega) hl hdown
  rw [hspec] at hrun
  cases hrun
  rw [readMsg_overlay e link.msgBuff (by omega)] at hread
  cases hread
  exact ⟨hrest, rfl⟩

/-- The broker follows every step. -/
theorem Refines.step (hN : 76 + N < 2 ^ 31) (h : Refines e N s S) {l : BusLabel}
    (hnext : s.Next e junk N l s') :
    ∃ S', Follows Broker.Step S l.spec S' ∧ Refines e N s' S' := by
  obtain ⟨hl, hstep⟩ := hnext
  cases l with
  | connect fd => exact h.connect hstep
  | close fd => exact h.close hstep
  | registerInterest fd keys as =>
    obtain ⟨link, hlink, hsent⟩ := Option.bind_eq_some_iff.mp hstep
    exact h.sendKeyOp hlink .register (fun _ => rfl) (fun _ hkey => hkey) hl.1 hl.2
      hsent
  | removeInterest fd keys as =>
    obtain ⟨link, hlink, hsent⟩ := Option.bind_eq_some_iff.mp hstep
    exact h.sendKeyOp hlink .deregister (fun _ => rfl) (fun _ hkey => hkey) hl.1 hl.2
      hsent
  | publish fd key data as => exact h.publishMsg hN hl hstep
  | handle fd as =>
    obtain ⟨link, hlink, hhandle⟩ := Option.bind_eq_some_iff.mp hstep
    exact h.handle hN hlink hl hhandle
  | send fd c as => exact ⟨S, rfl, h.send hN hl hstep⟩
  | write fd c n last => exact h.write hstep
  | done fd => exact h.done hstep
  | waitForEventData fd len as => exact h.waitForEventData hN hl hstep
  | waitForEvent fd as => exact h.waitForEvent hN hl hstep

/-- Every run of the service with its clients is a run of the broker, whichever calls and parts of
jobs come in between. -/
theorem bus_is_broker (e : Endian) (junk : List UInt8) (N : Nat) (hN : 76 + N < 2 ^ 31)
    (ls : List BusLabel) (s : Bus) (hruns : Trail (Bus.Next e junk N) .init ls s) :
    ∃ S, Trail Broker.Step .init (ls.filterMap BusLabel.spec) S ∧ Refines e N s S :=
  Trail.simulate (fun hR hnext => hR.step hN hnext) (refines_init e N) hruns

end

/-- A key with one element. -/
def sampleBusKey : StdEventKey := ⟨1, fun _ => 5⟩

instance (N : Nat) (s : Bus) : ∀ l : BusLabel, Decidable (l.Allowed N s)
  | .connect _ | .close _ | .write .. | .done _ => inferInstanceAs (Decidable True)
  | .registerInterest _ keys as | .removeInterest _ keys as => inferInstanceAs (Decidable
      ((∀ key ∈ keys, key.len ≤ STD_EVENT_KEY_MAX) ∧ ∀ a ∈ as, a ≠ .fail ∧ a ≠ .again false))
  | .publish _ key data as => inferInstanceAs (Decidable
      (key.len ≤ STD_EVENT_KEY_MAX ∧ data.length ≤ N ∧ ∀ a ∈ as, a ≠ .fail ∧ a ≠ .again false))
  | .handle _ as | .waitForEvent _ as => inferInstanceAs (Decidable (Benign STD_MAX_EINTR as))
  | .send _ c _ =>
    inferInstanceAs (Decidable (∀ x ∈ s.running.entries, x.2.sendingTo ≠ some c))
  | .waitForEventData _ len as =>
    inferInstanceAs (Decidable (N + sizeofEventMsg ≤ len ∧ Benign STD_MAX_EINTR as))

/-- Steps that can be checked one by one are a run. -/
theorem trail_next {e : Endian} {junk : List UInt8} {N : Nat} {ls : List BusLabel} {s : Bus}
    (hmeet : allMeet (Bus.step e junk) (fun s l => BusLabel.Allowed N s l) ls .init = true)
    (hrun : runSteps (Bus.step e junk) ls .init = some s) :
    Trail (Bus.Next e junk N) .init ls s :=
  trail_of_allMeet (fun s l => BusLabel.Allowed N s l) ls hmeet hrun

/-- One of three clients gets what the others publish. The first publication is sent in two parts,
between which the job of the second begins. -/
def sampleBusRun : List BusLabel := [.connect 1, .connect 2, .connect 3,
  .registerInterest 1 [sampleBusKey] [.part 30], .handle 1 [.eintr, .part 3],
  .publish 2 sampleBusKey [7] [], .publish 3 sampleBusKey [8] [], .handle 2 [],
  .send 2 1 [.part 10], .write 2 1 10 false, .handle 3 [], .write 2 1 83 true,
  .send 3 1 [.eintr], .waitForEventData 1 80 [], .write 3 1 93 true, .done 2,
  .waitForEvent 1 [.part 1]]

/-- What the first client has got in the end. -/
theorem sampleBusRun_runs : ∃ s, Trail (Bus.Next .little [] 8) .init sampleBusRun s ∧
    (s.links 1).map (fun link => link.received.map fun r => r.2.2) = some [[7], [8]] := by
  have heval : ((runSteps (Bus.step .little []) sampleBusRun .init).map fun s =>
      (s.links 1).map fun link => link.received.map fun r => r.2.2) = some (some [[7], [8]]) := by
    decide +kernel
  obtain ⟨s, hrun, hs⟩ := Option.map_eq_some_iff.mp heval
  exact ⟨s, trail_next (by decide +kernel) hrun, hs⟩

theorem bus_is_broker_sample : ∃ s S, Trail (Bus.Next .little [] 8) .init sampleBusRun s ∧
    Trail Broker.Step .init (sampleBusRun.filterMap BusLabel.spec) S ∧ Refines .little 8 s S := by
  obtain ⟨s, hruns, -⟩ := sampleBusRun_runs
  obtain ⟨S, hS⟩ := bus_is_broker .little [] 8 (by decide) sampleBusRun s hruns
  exact ⟨s, S, hruns, hS⟩

end OpxCommonUtils.Event
