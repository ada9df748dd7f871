import OpxCommonUtils.Event.Proofs.Frames

/-!
# Errors and frame boundaries

A call leaves a part of its frame in the stream, which may be nothing. The part depends on the frame
and the call only. When it is not empty, a frame can follow that the next call does not deliver.
-/

namespace OpxCommonUtils.Event

open Io

/-- A call of a client that waits for a frame: with a vector, which is limited to its size or may
grow, or with a place for the data of a message. -/
inductive Call where
  | waitForEvent (buff : Mem) (limitMax : Bool)
  | waitForEventData (len : Nat)

/-- What a call delivers: the code, and the vector or the message and its data. -/
abbrev Delivery := StdError × Mem × Mem

/-- The call. -/
def Call.run (e : Endian) (junk : List UInt8) (p : Peer) : Call → Exec (Delivery × Peer)
  | .waitForEvent buff limitMax => do
    let (rc, buff, p) ← stdClientWaitForEvent e junk p buff limitMax
    return ((rc, buff, []), p)
  | .waitForEventData len => do
    let (rc, msg, data, p) ← stdClientWaitForEventData e junk p len
    return ((rc, msg, data), p)

/-- The calls one after the other. -/
def Call.runAll (e : Endian) (junk : List UInt8) : List Call → Peer → Exec (List Delivery × Peer)
  | [], p => .ok ([], p)
  | c :: cs, p => do
    let (r, p) ← c.run e junk p
    let (rs, p) ← runAll e junk cs p
    return (r :: rs, p)

/-- The delivery is an error or holds the content of the frame. -/
def Concerns (e : Endian) (m : Message) : Call → Delivery → Prop
  | .waitForEvent _ _, (rc, buff, _) => rc = .ok → buff.take m.size = m.content e
  | .waitForEventData _, (rc, msg, data) =>
    rc = .ok → m.content e = e.bytes sizeofServMsg event_serv_msg_t_PUBLISH ++ msg ++ data

/-- The length of the data that a message gives. -/
def dataLen (e : Endian) (m : Message) : Nat := e.nat ((m.data.flatten.drop sizeofEventKey).take 4)

/-- A call that takes the whole frame off the stream: with a vector, the frame fits it and an `int`;
with a place for the data, the message is delivered or has no data. -/
def Clean (e : Endian) (m : Message) : Call → Prop
  | .waitForEvent buff limitMax => m.size < 2 ^ 31 ∧ (limitMax = true → m.size ≤ buff.length)
  | .waitForEventData len => 76 ≤ m.size ∧
      e.nat (e.bytes sizeofServMsg m.op) = event_serv_msg_t_PUBLISH ∧ m.size - 4 ≤ len ∧
      (m.size = 76 ∨ m.size - 76 = dataLen e m ∧ m.size - 76 < 2 ^ 31)

variable {e : Endian} {junk : List UInt8} {m : Message}

theorem size_eq (m : Message) : m.size = 4 + m.data.flatten.length := rfl

/-- What a call does with a frame at the front of a stream. -/
def Leaves (e : Endian) (junk : List UInt8) (m : Message) (c : Call) (r : Delivery)
    (left : List UInt8) : Prop :=
  ∀ {p : Peer} {rest : List UInt8}, p.Patient → p.bytes = m.frame e ++ rest →
    ∃ p' : Peer, c.run e junk p = .ok (r, p') ∧ p'.bytes = left ++ rest ∧ p'.Patient

/-- A wait with a vector. -/
theorem waitForEvent_leaves (hm : m.size < 2 ^ 32) (buff : Mem) (limitMax : Bool) :
    ∃ r left, Leaves e junk m (.waitForEvent buff limitMax) r left ∧
      (left = [] ↔ Clean e m (.waitForEvent buff limitMax)) ∧
      (left = [] → Concerns e m (.waitForEvent buff limitMax) r) := by
  have hne : m.content e ≠ [] := by
    intro hnil
    have := congrArg List.length hnil
    rw [Message.length_content, size_eq] at this
    simp at this
  by_cases hbig : limitMax = true ∧ buff.length < m.size
  · -- too big for the vector
    refine ⟨(.toobig, buff, []), m.content e, ?_, ?_, fun h => absurd h hne⟩
    · intro p rest hp hbytes
      obtain ⟨p₁, h₁, hrest₁, hp₁⟩ := readHeader_spec junk hp hm
        (hbytes.trans (List.append_assoc ..))
      refine ⟨p₁, ?_, hrest₁, hp₁⟩
      rw [Call.run, stdClientWaitForEvent, stdEventUtilEventRecv, h₁, exec_bind_ok]
      simp only [hbig.1, hbig.2, Bool.not_true, Bool.not_false, decide_true, Bool.and_true, if_true]
      rfl
    · refine iff_of_false hne fun h => ?_
      have := h.2 hbig.1
      omega
  have hfits : (!limitMax) = true ∨ m.size ≤ buff.length := by
    cases limitMax with
    | false => exact .inl rfl
    | true => exact .inr (by simpa using hbig)
  by_cases hint : m.size < 2 ^ 31
  · refine ⟨(.ok, overlay buff (m.content e), []), [], ?_, iff_of_true rfl ⟨hint, ?_⟩, fun _ _ => ?_⟩
    · intro p rest hp hbytes
      obtain ⟨p₁, h₁, hrest₁, hp₁⟩ := recv_spec junk (m.content e) rest hp
        (by simpa using hint) (by rw [hbytes, ← frame_eq]) buff (!limitMax)
        (by simpa using hfits.symm)
      refine ⟨p₁, ?_, hrest₁, hp₁⟩
      rw [Call.run, stdClientWaitForEvent, h₁]
      rfl
    · intro hlimit
      rcases hfits with hgrow | hle
      · rw [hlimit] at hgrow
        cases hgrow
      · exact hle
    · rw [overlay, List.take_left' (by simp)]
  · -- the size is read as a negative length
    refine ⟨(if m.size = 2 ^ 32 - 1 then .ok else .fail, grown buff m.size, []), m.content e,
      ?_,
      iff_of_false hne fun h => hint h.1, fun h => absurd h hne⟩
    intro p rest hp hbytes
    obtain ⟨p₁, h₁, hrest₁, hp₁⟩ := recv_huge junk _ hp hm (by omega)
      (hbytes.trans (List.append_assoc ..)) buff (!limitMax) (by simpa using hfits.symm)
    refine ⟨p₁, ?_, hrest₁, hp₁⟩
    rw [Call.run, stdClientWaitForEvent, h₁]
    rfl

/-- What a wait with a place for `len` bytes of data delivers of a frame: the code, the message, the
data, and what it leaves in the stream. -/
def msgOutcome (e : Endian) (m : Message) (len : Nat) :
    StdError × List UInt8 × List UInt8 × List UInt8 :=
  if m.size < 76 then (.fail, [], [], m.content e)
  else if e.nat (e.bytes sizeofServMsg m.op) ≠ event_serv_msg_t_PUBLISH then
    (.fail, [], [], m.data.flatten)
  else if len < m.size - 4 then (.toobig, [], [], m.data.flatten)
  else if m.size - 76 ≠ dataLen e m then
    (.fail, m.data.flatten.take 72, [], m.data.flatten.drop 72)
  else if m.size - 76 < 2 ^ 31 then
    (.ok, m.data.flatten.take 72, m.data.flatten.drop 72, [])
  else (.fail, m.data.flatten.take 72, [], m.data.flatten.drop 72)

variable (junk) in
theorem recvMsg_spec (hm : m.size < 2 ^ 32) (len : Nat) {p : Peer} {rest : List UInt8}
    (hp : p.Patient) (hbytes : p.bytes = m.frame e ++ rest) :
    ∃ p' : Peer, stdEventUtilEventRecvMsg e junk p len = .ok ((msgOutcome e m len).1,
        (msgOutcome e m len).2.1, (msgOutcome e m len).2.2.1, p') ∧
      p'.bytes = (msgOutcome e m len).2.2.2 ++ rest ∧ p'.Patient := by
  have hsize := size_eq m
  obtain ⟨p₁, h₁, hrest₁, hp₁⟩ := readHeader_spec junk hp hm
    (hbytes.trans (List.append_assoc ..))
  rw [stdEventUtilEventRecvMsg, h₁, exec_bind_ok, msgOutcome]
  dsimp only
  have hserv : ¬ ((sizeofServMsg : Nat) : Int) ≠ (sizeofServMsg : Nat) := fun h => h rfl
  have hevent : ¬ ((sizeofEventMsg : Nat) : Int) ≠ (sizeofEventMsg : Nat) := fun h => h rfl
  by_cases hsmall : m.size < 76
  · rw [if_pos hsmall, if_pos (show m.size < sizeofServMsg + sizeofEventMsg from hsmall)]
    exact ⟨p₁, rfl, hrest₁, hp₁⟩
  rw [if_neg hsmall, if_neg (show ¬ m.size < sizeofServMsg + sizeofEventMsg from hsmall)]
  obtain ⟨p₂, h₂, hrest₂, hp₂⟩ := stdRead_exact (e.bytes sizeofServMsg m.op)
    (m.data.flatten ++ rest) (n := sizeofServMsg) hp₁ (by decide)
    (by rw [hrest₁, Message.content, List.append_assoc]) (Endian.length_bytes ..)
  rw [h₂, exec_bind_ok]
  dsimp only
  rw [if_neg hserv]
  by_cases hpub : e.nat (e.bytes sizeofServMsg m.op) ≠ event_serv_msg_t_PUBLISH
  · rw [if_pos hpub, if_pos hpub]
    exact ⟨p₂, rfl, hrest₂, hp₂⟩
  rw [if_neg hpub, if_neg hpub]
  by_cases hbig : len < m.size - 4
  · rw [if_pos hbig, if_pos (show len < m.size - sizeofServMsg from hbig)]
    exact ⟨p₂, rfl, hrest₂, hp₂⟩
  rw [if_neg hbig, if_neg (show ¬ len < m.size - sizeofServMsg from hbig)]
  obtain ⟨p₃, h₃, hrest₃, hp₃⟩ := stdRead_exact (m.data.flatten.take 72)
    (m.data.flatten.drop 72 ++ rest) (n := sizeofEventMsg) hp₂ (by decide)
    (by rw [hrest₂, ← List.append_assoc, List.take_append_drop])
    (by rw [List.length_take, sizeofEventMsg]; omega)
  rw [h₃, exec_bind_ok]
  dsimp only
  rw [if_neg hevent]
  have hdl : e.nat (((m.data.flatten.take 72).drop sizeofEventKey).take 4) = dataLen e m := by
    rw [dataLen, List.drop_take, List.take_take]
    rfl
  have hsub : m.size - sizeofServMsg - sizeofEventMsg = m.size - 76 := by
    rw [sizeofServMsg, sizeofEventMsg]
    omega
  rw [hdl, hsub]
  by_cases hlen : m.size - 76 ≠ dataLen e m
  · rw [if_pos hlen, if_pos hlen]
    exact ⟨p₃, rfl, hrest₃, hp₃⟩
  rw [if_neg hlen, if_neg hlen]
  by_cases hint : m.size - 76 < 2 ^ 31
  · obtain ⟨p₄, h₄, hrest₄, hp₄⟩ := stdRead_exact _ _ (n := m.size - 76) hp₃ hint hrest₃
      (by rw [List.length_drop]; omega)
    have hto : toInt32 (m.size - 76) = ((m.size - 76 : Nat) : Int) := if_pos hint
    rw [if_pos hint, hto, h₄, exec_bind_ok]
    dsimp only
    rw [if_pos rfl]
    exact ⟨p₄, rfl, hrest₄, hp₄⟩
  · have hto : toInt32 (m.size - 76) = ((m.size - 76 : Nat) : Int) - 2 ^ 32 := if_neg hint
    have h₄ := stdRead_negative p₃ (toInt32 (m.size - 76)) (by omega) (by omega)
    rw [if_neg hint, h₄, exec_bind_ok]
    dsimp only
    rw [if_neg (by omega)]
    exact ⟨p₃, rfl, hrest₃, hp₃⟩

theorem flatten_drop_ne_nil {k : Nat} (h : 4 + k < m.size) : m.data.flatten.drop k ≠ [] := by
  intro hnil
  have := congrArg List.length hnil
  rw [List.length_drop, List.length_nil] at this
  rw [size_eq] at h
  omega

/-- Nothing is left exactly when the call is clean. -/
theorem msgOutcome_left (e : Endian) (m : Message) (len : Nat) :
    (msgOutcome e m len).2.2.2 = [] ↔ Clean e m (.waitForEventData len) := by
  have hsize := size_eq m
  have hdata : 76 ≤ m.size → m.data.flatten ≠ [] := by
    intro h
    simpa using flatten_drop_ne_nil (m := m) (k := 0) (by omega)
  rw [msgOutcome, Clean]
  by_cases hsmall : m.size < 76
  · rw [if_pos hsmall]
    refine iff_of_false (fun h => ?_) fun h => ?_
    · have := congrArg List.length h
      rw [Message.length_content] at this
      simp [hsize] at this
    · omega
  rw [if_neg hsmall]
  by_cases hpub : e.nat (e.bytes sizeofServMsg m.op) ≠ event_serv_msg_t_PUBLISH
  · rw [if_pos hpub]
    exact iff_of_false (hdata (by omega)) fun h => hpub h.2.1
  rw [if_neg hpub]
  by_cases hbig : len < m.size - 4
  · rw [if_pos hbig]
    exact iff_of_false (hdata (by omega)) fun h => by omega
  rw [if_neg hbig]
  by_cases hexact : m.size = 76
  · have hnil : m.data.flatten.drop 72 = [] := List.drop_of_length_le (by omega)
    refine iff_of_true ?_ ⟨by omega, not_not.mp hpub, by omega, .inl hexact⟩
    split_ifs
    · exact hnil
    · rfl
    · exact hnil
  have hdrop : m.data.flatten.drop 72 ≠ [] := flatten_drop_ne_nil (by omega)
  by_cases hlen : m.size - 76 ≠ dataLen e m
  · rw [if_pos hlen]
    refine iff_of_false hdrop ?_
    rintro ⟨-, -, -, heq | ⟨heq, -⟩⟩
    · exact hexact heq
    · exact hlen heq
  rw [if_neg hlen]
  by_cases hint : m.size - 76 < 2 ^ 31
  · rw [if_pos hint]
    exact iff_of_true rfl ⟨by omega, not_not.mp hpub, by omega, .inr ⟨not_not.mp hlen, hint⟩⟩
  · rw [if_neg hint]
    refine iff_of_false hdrop ?_
    rintro ⟨-, -, -, heq | ⟨-, hlt⟩⟩
    · exact hexact heq
    · exact hint hlt

/-- What is delivered as a message is the content of the frame. -/
theorem msgOutcome_ok {len : Nat} (h : (msgOutcome e m len).1 = .ok) :
    m.content e = e.bytes sizeofServMsg event_serv_msg_t_PUBLISH ++ (msgOutcome e m len).2.1 ++
      (msgOutcome e m len).2.2.1 := by
  rw [msgOutcome] at h ⊢
  split_ifs at h ⊢ with hsmall hpub hbig hlen hint
  have hword : e.bytes sizeofServMsg m.op = e.bytes sizeofServMsg event_serv_msg_t_PUBLISH := by
    have hnat := Endian.bytes_nat e (e.bytes sizeofServMsg m.op)
    rwa [Endian.length_bytes, not_not.mp hpub, eq_comm] at hnat
  rw [Message.content, hword, List.append_assoc, List.take_append_drop]

variable (junk) in
/-- Every call leaves something that depends on its frame only, and nothing exactly when it is
clean. -/
theorem call_leaves (hm : m.size < 2 ^ 32) (c : Call) : ∃ r left, Leaves e junk m c r left ∧
    (left = [] ↔ Clean e m c) ∧ (left = [] → Concerns e m c r) := by
  cases c with
  | waitForEvent buff limitMax => exact waitForEvent_leaves hm buff limitMax
  | waitForEventData len =>
    refine ⟨((msgOutcome e m len).1, (msgOutcome e m len).2.1, (msgOutcome e m len).2.2.1),
      (msgOutcome e m len).2.2.2, ?_, msgOutcome_left e m len, fun _ => msgOutcome_ok⟩
    intro p rest hp hbytes
    obtain ⟨p', hrun, hrest, hp'⟩ := recvMsg_spec junk hm len hp hbytes
    refine ⟨p', ?_, hrest, hp'⟩
    rw [Call.run, stdClientWaitForEventData, hrun]
    rfl

/-! ## After an error -/

/-- A header is read from whatever the stream starts with. -/
theorem readHeader_inv {p p₁ : Peer} (hp : p.Patient) (hlen : 16 ≤ p.bytes.length) {size : Nat}
    (hrun : readHeader e junk p = .ok (some size, p₁)) : size < 2 ^ 32 ∧
      e.nat (p.bytes.take 4) ≤ 8 ∧ p₁.bytes = p.bytes.drop (8 + e.nat (p.bytes.take 4)) ∧
      p₁.Patient := by
  obtain ⟨p₂, h₂, hrest₂, hp₂⟩ := stdRead_spec hp (n := sizeofIpcHdr) (by decide)
  have hmin : min sizeofIpcHdr p.bytes.length = sizeofIpcHdr := by
    rw [sizeofIpcHdr]
    omega
  have hserv : ¬ ((sizeofIpcHdr : Nat) : Int) ≠ (sizeofIpcHdr : Nat) := fun h => h rfl
  rw [hmin] at h₂
  rw [readHeader, h₂, exec_bind_ok] at hrun
  dsimp only at hrun
  rw [if_neg hserv, List.take_take] at hrun
  set h := e.nat (p.bytes.take 4) with hh
  by_cases hbig : sizeofIpcData - sizeofIpcHdr < h
  · rw [show min 4 sizeofIpcHdr = 4 from rfl, if_pos hbig] at hrun
    cases hrun
  have hle : h ≤ 8 := not_lt.mp hbig
  obtain ⟨p₃, h₃, hrest₃, hp₃⟩ := stdRead_spec hp₂ (n := h) (by omega)
  have hint : toInt32 h = (h : Int) := if_pos (by omega)
  have hmin₃ : min h p₂.bytes.length = h := by
    rw [hrest₂, List.length_drop, sizeofIpcHdr]
    omega
  rw [hmin₃] at h₃
  rw [show min 4 sizeofIpcHdr = 4 from rfl, if_neg hbig, hint, h₃, exec_bind_ok] at hrun
  dsimp only at hrun
  rw [if_neg (fun hne => hne rfl)] at hrun
  obtain ⟨hsize, rfl⟩ := Prod.mk.inj (Except.ok.inj hrun)
  refine ⟨?_, hle, ?_, hp₃⟩
  · rw [← Option.some.inj hsize]
    exact (e.nat_lt _).trans_le (Nat.pow_le_pow_right (by decide) (by simp) : 256 ^ _ ≤ 256 ^ 4)
  · rw [hrest₃, hrest₂, List.drop_drop]
    rfl

/-- Four bytes that are received into an empty vector are found in the stream behind two words and
at most eight bytes more. -/
theorem recv_inv {p p' : Peer} (hp : p.Patient) (hlen : 16 ≤ p.bytes.length) {bs : Mem}
    (hrun : stdEventUtilEventRecv e junk p [] true = .ok (.ok, bs, p')) (h4 : bs.length = 4) :
    e.nat (p.bytes.take 4) ≤ 8 ∧ bs <+: p.bytes.drop (8 + e.nat (p.bytes.take 4)) := by
  rw [stdEventUtilEventRecv] at hrun
  obtain ⟨⟨hdr, p₁⟩, h₁, hrun⟩ := exec_bind_eq_ok.mp hrun
  cases hdr with
  | none =>
    obtain ⟨h, -⟩ := Prod.mk.inj (Except.ok.inj hrun)
    cases h
  | some size =>
    obtain ⟨hsize, hle, hrest₁, hp₁⟩ := readHeader_inv hp hlen h₁
    refine ⟨hle, ?_⟩
    dsimp only at hrun
    rw [Bool.not_true, Bool.and_false, if_neg Bool.false_ne_true, List.nil_append, List.length_nil,
      Nat.sub_zero] at hrun
    by_cases hint : size < 2 ^ 31
    · obtain ⟨p₂, h₂, -, -⟩ := stdRead_spec hp₁ hint
      have hto : toInt32 size = (size : Int) := if_pos hint
      rw [hto, h₂, exec_bind_ok] at hrun
      dsimp only at hrun
      by_cases hall : size ≤ p₁.bytes.length
      · have hdrop : (List.replicate size (0 : UInt8)).drop (p₁.bytes.take size).length = [] :=
          List.drop_of_length_le (by rw [List.length_replicate, List.length_take]; omega)
        obtain ⟨-, heq⟩ := Prod.mk.inj (Except.ok.inj hrun)
        rw [hdrop, List.append_nil] at heq
        rw [← (Prod.mk.inj heq).1, ← hrest₁]
        exact List.take_prefix ..
      · rw [if_neg (by omega)] at hrun
        obtain ⟨h, -⟩ := Prod.mk.inj (Except.ok.inj hrun)
        cases h
    · -- nothing is read, and the vector is longer
      have hto : toInt32 size = (size : Int) - 2 ^ 32 := if_neg hint
      rw [stdRead_negative p₁ _ (by omega) (by omega), exec_bind_ok] at hrun
      dsimp only at hrun
      obtain ⟨-, heq⟩ := Prod.mk.inj (Except.ok.inj hrun)
      have hlong := congrArg List.length (Prod.mk.inj heq).1
      rw [List.nil_append, List.length_drop, List.length_replicate, List.length_nil, h4] at hlong
      omega

/-- A message of an operation word only. -/
def wordMessage (e : Endian) (b : UInt8) : Message := ⟨e.nat [b, 0, 0, 0], []⟩

theorem content_wordMessage (b : UInt8) : (wordMessage e b).content e = [b, 0, 0, 0] := by
  rw [Message.content, wordMessage, List.flatten_nil, List.append_nil]
  exact Endian.bytes_nat e [b, 0, 0, 0]

theorem size_wordMessage (b : UInt8) : (wordMessage e b).size = 4 := rfl

variable (junk) in
/-- Behind bytes that were left in the stream some frame is not delivered. -/
theorem exists_not_delivered {left : List UInt8} (hleft : left ≠ []) :
    ∃ b : UInt8, ∀ {p p' : Peer}, p.Patient → p.bytes = left ++ (wordMessage e b).frame e →
      stdEventUtilEventRecv e junk p [] true ≠ .ok (.ok, (wordMessage e b).content e, p') := by
  have hpos := List.length_pos_iff.mpr hleft
  set G := left ++ ipcHeader e 4 with hG
  have hlenG : 17 ≤ G.length := by
    rw [hG, List.length_append, length_ipcHeader]
    omega
  obtain ⟨c, hc⟩ : ∃ c, e.nat (G.take 4) ≤ 8 → G[8 + e.nat (G.take 4)]? = some c := by
    by_cases hle : e.nat (G.take 4) ≤ 8
    · have hlt : 8 + e.nat (G.take 4) < G.length := by omega
      exact ⟨_, fun _ => List.getElem?_eq_getElem hlt⟩
    · exact ⟨0, fun h => absurd h hle⟩
  refine ⟨c + 1, ?_⟩
  intro p p' hp hbytes hrun
  have hp' : p.bytes = G ++ [c + 1, 0, 0, 0] := by
    rw [hbytes, Message.frame, size_wordMessage, content_wordMessage, hG, List.append_assoc]
  have htake : p.bytes.take 4 = G.take 4 := by
    rw [hp', List.take_append_of_le_length (by omega)]
  rw [content_wordMessage] at hrun
  obtain ⟨hle, hpre⟩ := recv_inv hp (by rw [hp', List.length_append]; omega) hrun rfl
  rw [htake] at hle hpre
  -- the first byte received stands before the frame's content
  have hfirst : (p.bytes.drop (8 + e.nat (G.take 4)))[0]? = some (c + 1) := by
    obtain ⟨tail, htail⟩ := hpre
    rw [← htail]
    rfl
  rw [List.getElem?_drop, hp', List.getElem?_append_left (by omega), Nat.add_zero, hc hle,
    Option.some_inj] at hfirst
  simp at hfirst

/-! ## Sequences of calls -/

/-- A frame and the call that waits for it. -/
structure Wait where
  frame : Message
  call : Call

/-- The stream of the frames of waits. -/
def stream (e : Endian) (ws : List Wait) : List UInt8 := frames e (ws.map Wait.frame)

/-- What the call delivers of a stream that is its own frame. -/
def Alone (e : Endian) (junk : List UInt8) (w : Wait) (r : Delivery) : Prop :=
  ∃ p', w.call.run e junk ⟨w.frame.frame e, []⟩ = .ok (r, p')

/-- Each call of a sequence delivers what it delivers of its own frame alone. -/
def OwnFrames (e : Endian) (junk : List UInt8) (ws : List Wait) (p : Peer) : Prop :=
  ∃ rs p', Call.runAll e junk (ws.map Wait.call) p = .ok (rs, p') ∧
    List.Forall₂ (Alone e junk) ws rs

theorem Leaves.alone {c : Call} {r : Delivery} {left : List UInt8} (h : Leaves e junk m c r left) :
    Alone e junk ⟨m, c⟩ r := by
  obtain ⟨p', hrun, -, -⟩ := h (p := ⟨m.frame e, []⟩) trivial (List.append_nil _).symm
  exact ⟨p', hrun⟩

theorem Alone.eq {w : Wait} {r r' : Delivery} (h : Alone e junk w r) (h' : Alone e junk w r') :
    r = r' := by
  obtain ⟨_, hrun⟩ := h
  obtain ⟨_, hrun'⟩ := h'
  exact (Prod.mk.inj (Except.ok.inj (hrun.symm.trans hrun'))).1

theorem stream_cons (e : Endian) (w : Wait) (ws : List Wait) :
    stream e (w :: ws) = w.frame.frame e ++ stream e ws := by
  simp [stream, frames]

/-- The first call of a sequence delivers what it delivers alone, and the others go on behind what
it left. -/
theorem ownFrames_cons {w : Wait} (ws : List Wait) {r : Delivery} {left : List UInt8}
    (hleaves : Leaves e junk w.frame w.call r left) {p : Peer} (hp : p.Patient)
    (hbytes : p.bytes = stream e (w :: ws)) : ∃ p' : Peer, p'.Patient ∧
      p'.bytes = left ++ stream e ws ∧
      (OwnFrames e junk (w :: ws) p ↔ OwnFrames e junk ws p') := by
  obtain ⟨p', hrun, hrest, hp'⟩ := hleaves hp (hbytes.trans (stream_cons e w ws))
  refine ⟨p', hp', hrest, ?_⟩
  rw [OwnFrames, List.map_cons, Call.runAll, hrun, exec_bind_ok]
  constructor
  · rintro ⟨rs, q, hall, hforall⟩
    obtain ⟨⟨rs', q'⟩, hall', heq⟩ := exec_bind_eq_ok.mp hall
    obtain ⟨rfl, rfl⟩ := Prod.mk.inj (Except.ok.inj heq)
    cases hforall with
    | cons _ htail => exact ⟨rs', _, hall', htail⟩
  · rintro ⟨rs, q, hall, hforall⟩
    exact ⟨r :: rs, q, by dsimp only; rw [hall]; rfl, .cons hleaves.alone hforall⟩

/-- After clean calls every call delivers what it delivers of its own frame. -/
theorem ownFrames_of_clean (next : Wait) (hnext : next.frame.size < 2 ^ 32) (ws : List Wait) :
    (∀ w ∈ ws, w.frame.size < 2 ^ 32) → (∀ w ∈ ws, Clean e w.frame w.call) → ∀ {p : Peer},
      p.Patient → p.bytes = stream e (ws ++ [next]) → OwnFrames e junk (ws ++ [next]) p := by
  induction ws with
  | nil =>
    intro _ _ p hp hbytes
    obtain ⟨r, left, hleaves, -, -⟩ := call_leaves junk (e := e) hnext next.call
    obtain ⟨p', -, -, hiff⟩ := ownFrames_cons _ hleaves hp hbytes
    exact hiff.mpr ⟨[], p', rfl, .nil⟩
  | cons w ws ih =>
    intro hsize hclean p hp hbytes
    obtain ⟨r, left, hleaves, hleft, -⟩ := call_leaves junk (e := e)
      (hsize w (by simp)) w.call
    obtain rfl := hleft.mpr (hclean w (by simp))
    obtain ⟨p', hp', hrest, hiff⟩ := ownFrames_cons (ws ++ [next]) hleaves hp hbytes
    exact hiff.mpr (ih (fun w' hw' => hsize w' (by simp [hw']))
      (fun w' hw' => hclean w' (by simp [hw'])) hp' hrest)

variable (junk) in
/-- After a call that is not clean a frame can follow that a wait with a growing vector does not
deliver. -/
theorem not_ownFrames (w : Wait) (hw : w.frame.size < 2 ^ 32) (hunclean : ¬ Clean e w.frame w.call)
    (ws : List Wait) : (∀ w ∈ ws, w.frame.size < 2 ^ 32) →
      (∀ w ∈ ws, Clean e w.frame w.call) → ∃ b, ∀ {p : Peer}, p.Patient →
        p.bytes = stream e (ws ++ [w, ⟨wordMessage e b, .waitForEvent [] false⟩]) →
        ¬ OwnFrames e junk (ws ++ [w, ⟨wordMessage e b, .waitForEvent [] false⟩]) p := by
  induction ws with
  | nil =>
    intro _ _
    obtain ⟨r, left, hleaves, hleft, -⟩ := call_leaves junk (e := e) hw w.call
    obtain ⟨b, hb⟩ := exists_not_delivered junk (e := e) (mt hleft.mp hunclean)
    refine ⟨b, fun {p} hp hbytes hown => ?_⟩
    obtain ⟨p', hp', hrest, hiff⟩ := ownFrames_cons _ hleaves hp hbytes
    obtain ⟨rs, q, hall, hforall⟩ := hiff.mp hown
    obtain ⟨⟨r', p₁⟩, hrun, hall⟩ := exec_bind_eq_ok.mp hall
    obtain ⟨⟨rs', q'⟩, -, heq⟩ := exec_bind_eq_ok.mp hall
    obtain ⟨rfl, -⟩ := Prod.mk.inj (Except.ok.inj heq)
    obtain ⟨⟨rc, buff, p₂⟩, hrecv, heq⟩ := exec_bind_eq_ok.mp hrun
    obtain ⟨rfl, rfl⟩ := Prod.mk.inj (Except.ok.inj heq)
    cases hforall with
    | cons halone _ =>
      obtain ⟨p₃, h₃, -, -⟩ := recv_spec junk ((wordMessage e b).content e) [] (e := e)
        (p := ⟨(wordMessage e b).frame e, []⟩) trivial
        (by rw [Message.length_content, size_wordMessage]; decide)
        (by rw [← frame_eq, List.append_nil]) [] true (.inr rfl)
      have hdelivered : Alone e junk ⟨wordMessage e b, .waitForEvent [] false⟩
          (.ok, overlay [] ((wordMessage e b).content e), []) := by
        refine ⟨p₃, ?_⟩
        rw [Call.run, stdClientWaitForEvent, Bool.not_false, h₃]
        rfl
      obtain ⟨hrc, hmem⟩ := Prod.mk.inj (halone.eq hdelivered)
      obtain ⟨hbuff, -⟩ := Prod.mk.inj hmem
      rw [overlay, List.drop_nil, List.append_nil] at hbuff
      rw [hrc, hbuff] at hrecv
      refine hb hp' ?_ hrecv
      rw [hrest, stream_cons]
      simp [stream, frames]
  | cons w' ws ih =>
    intro hsize hclean
    obtain ⟨b, hb⟩ := ih (fun w' hw' => hsize w' (by simp [hw']))
      (fun w' hw' => hclean w' (by simp [hw']))
    refine ⟨b, fun {p} hp hbytes hown => ?_⟩
    obtain ⟨r, left, hleaves, hleft, -⟩ := call_leaves junk (e := e)
      (hsize w' (by simp)) w'.call
    obtain rfl := hleft.mpr (hclean w' (by simp))
    obtain ⟨p', hp', hrest, hiff⟩ := ownFrames_cons
      (ws ++ [w, ⟨wordMessage e b, .waitForEvent [] false⟩]) hleaves hp hbytes
    exact hb hp' hrest (hiff.mp hown)

/-- A list some element of which does not satisfy a property has a first such element. -/
theorem exists_first {α : Type} {P : α → Prop} {l : List α} (h : ¬ ∀ a ∈ l, P a) :
    ∃ pre a post, l = pre ++ a :: post ∧ (∀ b ∈ pre, P b) ∧ ¬ P a := by
  induction l with
  | nil => exact absurd (by simp) h
  | cons a l ih =>
    by_cases ha : P a
    · obtain ⟨pre, b, post, rfl, hpre, hb⟩ := ih fun hl => h (by simpa [ha] using hl)
      exact ⟨a :: pre, b, post, rfl, by simpa [ha] using hpre, hb⟩
    · exact ⟨[], a, l, rfl, by simp, ha⟩

/-- The calls of a sequence deliver their frames or errors for them, and after each of them the next
call, whatever it and its frame are, delivers what it delivers of its own frame, if and only if all
calls of the sequence are clean. -/
theorem boundaries_kept_iff (e : Endian) (junk : List UInt8) (ws : List Wait)
    (hsize : ∀ w ∈ ws, w.frame.size < 2 ^ 32) :
    ((∀ w ∈ ws, ∀ r, Alone e junk w r → Concerns e w.frame w.call r) ∧
      ∀ (n : Nat) (next : Wait) (as : List Answer), next.frame.size < 2 ^ 32 →
        Benign STD_MAX_EINTR as →
        OwnFrames e junk (ws.take n ++ [next]) ⟨stream e (ws.take n ++ [next]), as⟩) ↔
      ∀ w ∈ ws, Clean e w.frame w.call := by
  constructor
  · rintro ⟨-, hown⟩
    by_contra hunclean
    obtain ⟨pre, w, post, rfl, hpre, hw⟩ := exists_first hunclean
    obtain ⟨b, hb⟩ := not_ownFrames junk (e := e) w (hsize w (by simp)) hw pre
      (fun w' hw' => hsize w' (by simp [hw'])) hpre
    have htake : (pre ++ w :: post).take (pre.length + 1) = pre ++ [w] := by
      rw [List.append_cons, List.take_left' (by simp)]
    have h := hown (pre.length + 1) ⟨wordMessage e b, .waitForEvent [] false⟩ []
      (by rw [size_wordMessage]; decide) trivial
    rw [htake, List.append_assoc] at h
    exact hb (p := ⟨_, []⟩) trivial rfl h
  · intro hclean
    refine ⟨fun w hw r hr => ?_, fun n next as hnext has => ?_⟩
    · obtain ⟨r', left, hleaves, hleft, hconcerns⟩ := call_leaves junk (e := e)
        (hsize w hw) w.call
      rw [hr.eq hleaves.alone]
      exact hconcerns (hleft.mpr (hclean w hw))
    · exact ownFrames_of_clean next hnext (ws.take n)
        (fun w hw => hsize w (List.mem_of_mem_take hw))
        (fun w hw => hclean w (List.mem_of_mem_take hw)) has rfl

/-- A message of eight bytes, for a vector limited to eight, and then for one that may grow. -/
theorem boundaries_kept_iff_sample :
    let ws : List Wait := [⟨⟨9, [[1, 2], [3, 4]]⟩, .waitForEvent (List.replicate 8 0) true⟩,
      ⟨⟨9, [[1, 2], [3, 4]]⟩, .waitForEvent [] false⟩]
    ((∀ w ∈ ws, ∀ r, Alone .little [] w r → Concerns .little w.frame w.call r) ∧
      ∀ (n : Nat) (next : Wait) (as : List Answer), next.frame.size < 2 ^ 32 →
        Benign STD_MAX_EINTR as →
        OwnFrames .little [] (ws.take n ++ [next]) ⟨stream .little (ws.take n ++ [next]), as⟩) ↔
      ∀ w ∈ ws, Clean .little w.frame w.call :=
  boundaries_kept_iff .little [] [⟨⟨9, [[1, 2], [3, 4]]⟩, .waitForEvent (List.replicate 8 0) true⟩,
    ⟨⟨9, [[1, 2], [3, 4]]⟩, .waitForEvent [] false⟩] (by decide)

/-- A message that is too big for a vector limited to four bytes, and another for one that may
grow. -/
def sampleLost : List Wait := [⟨⟨9, [[1, 2], [3, 4]]⟩, .waitForEvent (List.replicate 4 0) true⟩,
  ⟨⟨3, []⟩, .waitForEvent [] false⟩]

/-- The second call takes the operation word of the first message for the length of a header. -/
theorem boundary_lost : ¬ OwnFrames .little [] sampleLost ⟨stream .little sampleLost, []⟩ := by
  rintro ⟨rs, p', hrun, hforall⟩
  have hall : (Call.runAll .little [] (sampleLost.map Wait.call) ⟨stream .little sampleLost, []⟩).map
      Prod.fst = .ok [(.toobig, [0, 0, 0, 0], []), (.fail, [], [])] := by decide +kernel
  have hsecond : (Call.run .little [] ⟨(⟨3, []⟩ : Message).frame .little, []⟩
      (.waitForEvent [] false)).map Prod.fst = .ok (.ok, [3, 0, 0, 0], []) := by decide +kernel
  rw [hrun] at hall
  obtain rfl : rs = _ := Except.ok.inj hall
  cases hforall with
  | cons _ htail =>
    cases htail with
    | cons halone _ =>
      obtain ⟨p'', hown⟩ := halone
      rw [hown] at hsecond
      cases hsecond

end OpxCommonUtils.Event
