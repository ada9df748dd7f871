import OpxCommonUtils.Event.Proofs.Boundaries

/-!
# Receiving into a buffer of the caller

What `std_client_wait_for_event_data` does with a published message, for every size of the data and
of the buffer. The size that is compared with that of the buffer still counts the message header, so
a buffer has to be 72 bytes larger than the data.
-/

namespace OpxCommonUtils.Event

open Io

variable {e : Endian} {junk key data : List UInt8} {len : Nat}

/-- The message was received: the code is OK, the key and the length are filled in, and the buffer
got the data. -/
def Received (e : Endian) (junk key data : List UInt8) (len : Nat) (p : Peer) : Prop :=
  ∃ p', stdClientWaitForEventData e junk p len =
    .ok (.ok, key ++ e.bytes 4 data.length, data, p')

/-- Whatever arrives, no more than `len` bytes are put in the buffer. -/
theorem recvMsg_le {p p' : Peer} {rc : StdError} {msg out : List UInt8}
    (hrun : stdClientWaitForEventData e junk p len = .ok (rc, msg, out, p')) :
    out.length ≤ len := by
  rw [stdClientWaitForEventData, stdEventUtilEventRecvMsg] at hrun
  obtain ⟨⟨hdr, p₁⟩, -, hrun⟩ := exec_bind_eq_ok.mp hrun
  cases hdr with
  | none =>
    cases hrun
    exact Nat.zero_le _
  | some size =>
    dsimp only at hrun
    split at hrun
    · cases hrun
      exact Nat.zero_le _
    obtain ⟨⟨rc₁, mtype, p₂⟩, -, hrun⟩ := exec_bind_eq_ok.mp hrun
    dsimp only at hrun
    split at hrun
    · cases hrun
      exact Nat.zero_le _
    split at hrun
    · cases hrun
      exact Nat.zero_le _
    split at hrun
    · cases hrun
      exact Nat.zero_le _
    rename_i hfit
    obtain ⟨⟨rc₂, msg₂, p₃⟩, -, hrun⟩ := exec_bind_eq_ok.mp hrun
    dsimp only at hrun
    split at hrun
    · cases hrun
      exact Nat.zero_le _
    split at hrun
    · cases hrun
      exact Nat.zero_le _
    rename_i hlen
    obtain ⟨⟨rc₃, bs, p₄⟩, hread, hrun⟩ := exec_bind_eq_ok.mp hrun
    cases hrun
    have hle := stdRead_le (by unfold toInt32; split <;> omega) hread
    change bs.length ≤ len
    unfold toInt32 at hle
    split at hle <;> omega

/-! ## Published messages -/

/-- The message that both ways to publish send: its pieces together are the key, the length of the
data and the data. -/
def Publishes (e : Endian) (key data : List UInt8) (m : Message) : Prop :=
  m.op = event_serv_msg_t_PUBLISH ∧ m.data.flatten = key ++ e.bytes 4 data.length ++ data

/-- A publication with a message structure is a send of such a message. -/
theorem stdClientPublishMsg_eq (e : Endian) (p : Peer) (hkey : key.length = 68)
    (hdata : data.length < 2 ^ 32) :
    ∃ m, Publishes e key data m ∧ stdClientPublishMsg e p (key ++ e.bytes 4 data.length ++ data) =
      stdEventUtilEventSend e p m.op m.data := by
  refine ⟨⟨event_serv_msg_t_PUBLISH, [key ++ e.bytes 4 data.length ++ data]⟩, ⟨rfl, by simp⟩, ?_⟩
  have hlen : Mem.load (key ++ e.bytes 4 data.length ++ data) sizeofEventKey 4 =
      .ok (e.bytes 4 data.length) := by
    have hat : Mem.At (key ++ e.bytes 4 data.length ++ data) sizeofEventKey
        (e.bytes 4 data.length) := ⟨key, data, rfl, hkey⟩
    have hload := hat.load
    rwa [Endian.length_bytes] at hload
  have hall : Mem.load (key ++ e.bytes 4 data.length ++ data) 0 (sizeofEventMsg + data.length) =
      .ok (key ++ e.bytes 4 data.length ++ data) := by
    have hat : Mem.At (key ++ e.bytes 4 data.length ++ data) 0
        (key ++ e.bytes 4 data.length ++ data) := ⟨[], [], by simp, rfl⟩
    have hload := hat.load
    rwa [show (key ++ e.bytes 4 data.length ++ data).length = sizeofEventMsg + data.length by
      simp only [List.length_append, Endian.length_bytes, hkey, sizeofEventMsg]] at hload
  rw [stdClientPublishMsg, hlen, exec_bind_ok, Endian.nat_bytes (by omega), hall, exec_bind_ok]

/-- So is one with the components. -/
theorem stdClientPublishMsgData_eq (e : Endian) (p : Peer) (key data : List UInt8) :
    ∃ m, Publishes e key data m ∧ stdClientPublishMsgData e p key data =
      stdEventUtilEventSend e p m.op m.data :=
  ⟨⟨event_serv_msg_t_PUBLISH, [key ++ e.bytes 4 data.length, data]⟩, ⟨rfl, by simp⟩, rfl⟩

variable {m : Message}

theorem Publishes.size_eq (h : Publishes e key data m) (hkey : key.length = 68) :
    m.size = 76 + data.length := by
  rw [OpxCommonUtils.Event.size_eq, h.2]
  simp only [List.length_append, Endian.length_bytes, hkey]
  omega

/-- The outcome for a published message whose size fits the header. -/
theorem Publishes.msgOutcome (h : Publishes e key data m) (hkey : key.length = 68)
    (hsize : m.size < 2 ^ 32) : msgOutcome e m len =
      if len < data.length + 72 then (.toobig, [], [], m.data.flatten)
      else if data.length < 2 ^ 31 then (.ok, key ++ e.bytes 4 data.length, data, [])
      else (.fail, key ++ e.bytes 4 data.length, [], data) := by
  have hm := h.size_eq hkey
  have hhead : (key ++ e.bytes 4 data.length).length = 72 := by simp [hkey]
  have htake : m.data.flatten.take 72 = key ++ e.bytes 4 data.length := by
    rw [h.2, List.take_left' hhead]
  have hdrop : m.data.flatten.drop 72 = data := by
    rw [h.2, List.drop_left' hhead]
  have hlen : dataLen e m = data.length := by
    rw [dataLen, h.2, List.append_assoc, sizeofEventKey, List.drop_left' hkey,
      List.take_left' (Endian.length_bytes ..), Endian.nat_bytes (by omega)]
  have hop : ¬ e.nat (e.bytes sizeofServMsg m.op) ≠ event_serv_msg_t_PUBLISH := by
    rw [h.1, Endian.nat_bytes (by decide)]
    exact fun hne => hne rfl
  rw [OpxCommonUtils.Event.msgOutcome, if_neg (by omega), if_neg hop, hlen, htake, hdrop,
    if_neg (show ¬ m.size - 76 ≠ data.length by omega), hm, Nat.add_sub_cancel_left]
  by_cases hbig : len < data.length + 72
  · rw [if_pos hbig, if_pos (by omega)]
  · rw [if_neg hbig, if_neg (by omega)]

theorem msgOutcome_data_le (e : Endian) (m : Message) (len : Nat) :
    (msgOutcome e m len).2.2.1.length ≤ m.size - 76 := by
  have hsize := size_eq m
  rw [msgOutcome]
  split_ifs <;> simp only [List.length_nil, List.length_drop] <;> omega

variable (junk) in
/-- A published message is received if and only if the buffer has 72 bytes more than the data, and
the size fits an `int`. -/
theorem received_iff (h : Publishes e key data m) (hkey : key.length = 68) {p : Peer}
    (hp : p.Patient) (hbytes : p.bytes = ipcHeader e (m.size % 2 ^ 32) ++ m.content e) :
    Received e junk key data len p ↔ data.length + 72 ≤ len ∧ data.length < 2 ^ 31 := by
  have hm := h.size_eq hkey
  rcases Nat.lt_or_ge m.size (2 ^ 32) with hsize | hsize
  · rw [Nat.mod_eq_of_lt hsize] at hbytes
    obtain ⟨p', hrun, -⟩ := recvMsg_spec junk hsize len hp
      (show p.bytes = m.frame e ++ [] by rw [hbytes, List.append_nil]; rfl)
    rw [h.msgOutcome hkey hsize] at hrun
    unfold Received stdClientWaitForEventData
    rw [hrun]
    by_cases hbig : len < data.length + 72
    · rw [if_pos hbig]
      refine iff_of_false ?_ (by omega)
      rintro ⟨p'', heq⟩
      cases heq
    rw [if_neg hbig]
    by_cases hint : data.length < 2 ^ 31
    · rw [if_pos hint]
      exact iff_of_true ⟨p', rfl⟩ ⟨by omega, hint⟩
    · rw [if_neg hint]
      refine iff_of_false ?_ fun hr => hint hr.2
      rintro ⟨p'', heq⟩
      cases heq
  · -- The header gives a size that is too small, and no more data can be received.
    refine iff_of_false ?_ (by omega)
    rintro ⟨p'', hrecv⟩
    have hmod : m.size % 2 ^ 32 < 2 ^ 32 := Nat.mod_lt _ (by decide)
    rcases Nat.lt_or_ge (m.size % 2 ^ 32) 76 with hsmall | hlarge
    · obtain ⟨p₁, h₁, -⟩ := readHeader_spec junk hp hmod hbytes
      rw [stdClientWaitForEventData, stdEventUtilEventRecvMsg, h₁, exec_bind_ok] at hrecv
      dsimp only at hrecv
      rw [if_pos (show m.size % 2 ^ 32 < sizeofServMsg + sizeofEventMsg from hsmall)] at hrecv
      cases hrecv
    · -- What is received is the frame of the message cut down to the size given.
      have hsizes := size_eq m
      obtain ⟨k, hk⟩ : ∃ k, m.size % 2 ^ 32 = 4 + k := ⟨m.size % 2 ^ 32 - 4, by omega⟩
      have hcut : (Message.mk m.op [m.data.flatten.take k]).size = m.size % 2 ^ 32 := by
        rw [size_eq, List.flatten_singleton, List.length_take]
        omega
      have hframe : p.bytes =
          (Message.mk m.op [m.data.flatten.take k]).frame e ++ m.data.flatten.drop k := by
        rw [hbytes, Message.frame, hcut, Message.content, Message.content, List.flatten_singleton]
        simp only [List.append_assoc, List.take_append_drop]
      obtain ⟨p₁, hrun, -⟩ := recvMsg_spec junk (by omega) len hp hframe
      rw [stdClientWaitForEventData, hrun] at hrecv
      have hout := msgOutcome_data_le e ⟨m.op, [m.data.flatten.take k]⟩ len
      rw [hcut] at hout
      simp only [Except.ok.injEq, Prod.mk.injEq] at hrecv
      rw [hrecv.2.2.1] at hout
      omega

/-- Receiving accepts exactly the data that fits, from both ways to publish and for every way the
reads are cut, if and only if the data does not fit or the buffer has room for the message header
too and the size fits an `int`. No more than `len` bytes are written in any case. -/
theorem received_iff_fits (e : Endian) (junk key data : List UInt8) (hkey : key.length = 68)
    (hobject : data.length + 92 < 2 ^ 64) (answers : List Answer) (sent : Peer)
    (hsent : data.length < 2 ^ 32 ∧ stdClientPublishMsg e ⟨[], answers⟩
          (key ++ e.bytes 4 data.length ++ data) = .ok (.ok, sent) ∨
      stdClientPublishMsgData e ⟨[], answers⟩ key data = .ok (.ok, sent)) (len : Nat) :
    (∀ p rc msg out p', stdClientWaitForEventData e junk p len = .ok (rc, msg, out, p') →
      out.length ≤ len) ∧
    ((∀ as, Benign STD_MAX_EINTR as →
        (Received e junk key data len ⟨sent.bytes, as⟩ ↔ data.length ≤ len)) ↔
      len < data.length ∨ data.length + 72 ≤ len ∧ data.length < 2 ^ 31) := by
  refine ⟨fun p rc msg out p' => recvMsg_le, ?_⟩
  obtain ⟨m, hm, hsend⟩ : ∃ m, Publishes e key data m ∧
      stdEventUtilEventSend e ⟨[], answers⟩ m.op m.data = .ok (.ok, sent) := by
    rcases hsent with ⟨hdata, hsent⟩ | hsent
    · obtain ⟨m, hm, heq⟩ := stdClientPublishMsg_eq e ⟨[], answers⟩ hkey hdata
      exact ⟨m, hm, heq ▸ hsent⟩
    · obtain ⟨m, hm, heq⟩ := stdClientPublishMsgData_eq e ⟨[], answers⟩ key data
      exact ⟨m, hm, heq ▸ hsent⟩
  have hsize := hm.size_eq hkey
  obtain ⟨rc, p', hrun, hbytes, -⟩ := send_wrapped (e := e) (p := ⟨[], answers⟩) (m := m) (by omega)
  rw [hrun] at hsend
  cases hsend
  have hreceived : ∀ as, Benign STD_MAX_EINTR as →
      (Received e junk key data len ⟨sent.bytes, as⟩ ↔
        data.length + 72 ≤ len ∧ data.length < 2 ^ 31) :=
    fun as has => received_iff junk hm hkey has (hbytes rfl)
  constructor
  · intro h
    have h := (hreceived [] trivial).symm.trans (h [] trivial)
    omega
  · intro h as has
    rw [hreceived as has]
    omega

/-- A key of zeros. -/
def sampleKey : List UInt8 := List.replicate 68 0

theorem received_iff_fits_sample : ∃ sent,
    (∀ p rc msg out p', stdClientWaitForEventData .little [] p 80 = .ok (rc, msg, out, p') →
      out.length ≤ 80) ∧
    ((∀ as, Benign STD_MAX_EINTR as →
        (Received .little [] sampleKey [7, 8] 80 ⟨sent, as⟩ ↔ 2 ≤ 80)) ↔
      80 < 2 ∨ 2 + 72 ≤ 80 ∧ 2 < 2 ^ 31) := by
  obtain ⟨m, hm, heq⟩ := stdClientPublishMsgData_eq .little ⟨[], []⟩ sampleKey [7, 8]
  obtain ⟨rc, sent, hrun, -, hok⟩ := send_wrapped (e := .little) (p := ⟨[], []⟩) (m := m)
    (by rw [hm.size_eq rfl]; decide)
  obtain rfl : rc = .ok := hok (by simp [Steady])
  exact ⟨sent.bytes, received_iff_fits .little [] sampleKey [7, 8] rfl (by decide) [] sent
    (.inr (heq.trans hrun)) 80⟩

/-- One byte of data, published over a stream that nothing disturbs, is refused by a wait with a
buffer of one byte. -/
theorem one_byte_refused : ∃ sent,
    stdClientPublishMsgData .little ⟨[], []⟩ sampleKey [7] = .ok (.ok, sent) ∧
      ¬ (Received .little [] sampleKey [7] 1 ⟨sent.bytes, []⟩ ↔ [(7 : UInt8)].length ≤ 1) := by
  obtain ⟨m, hm, heq⟩ := stdClientPublishMsgData_eq .little ⟨[], []⟩ sampleKey [7]
  obtain ⟨rc, sent, hrun, hbytes, hok⟩ := send_wrapped (e := .little) (p := ⟨[], []⟩) (m := m)
    (by rw [hm.size_eq rfl]; decide)
  obtain rfl : rc = .ok := hok (by simp [Steady])
  refine ⟨sent, heq.trans hrun, fun h => ?_⟩
  have hpatient : Peer.Patient ⟨sent.bytes, []⟩ := trivial
  have hrecv := (received_iff [] hm rfl hpatient (hbytes rfl)).mp (h.mpr le_rfl)
  simp at hrecv

end OpxCommonUtils.Event
