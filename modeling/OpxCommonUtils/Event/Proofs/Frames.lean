import OpxCommonUtils.Event.Frame
import OpxCommonUtils.Io.Proofs.Transfer

/-!
# Frames over a byte stream

A frame that was sent arrives whole however the kernel cuts the stream, as long as its size fits
an `int`. Every receiving routine is described on a stream that starts with a frame.
-/

namespace OpxCommonUtils.Event

open Io

/-- An operation word with pieces of data. -/
structure Message where
  op : Nat
  data : List (List UInt8)

namespace Message

/-- What follows the header: the operation word and the data. -/
def content (e : Endian) (m : Message) : List UInt8 := e.bytes sizeofServMsg m.op ++ m.data.flatten

/-- The size the header gives. -/
def size (m : Message) : Nat := sizeofServMsg + m.data.flatten.length

/-- The bytes of the frame. -/
def frame (e : Endian) (m : Message) : List UInt8 := ipcHeader e m.size ++ m.content e

@[simp] theorem length_content (e : Endian) (m : Message) : (m.content e).length = m.size := by
  simp [content, size]

end Message

variable {e : Endian} {junk : List UInt8} {p : Peer} {m : Message}

@[simp] theorem length_ipcHeader (e : Endian) (n : Nat) : (ipcHeader e n).length = 16 := by
  simp [ipcHeader]

/-- A send ends; one that returns OK has put a header, with the size as far as its field holds it,
and the content on the stream. -/
theorem send_wrapped (hsize : 16 + m.size < 2 ^ 64) : ∃ rc p',
    stdEventUtilEventSend e p m.op m.data = .ok (rc, p') ∧
      (rc = .ok → p'.bytes = p.bytes ++ (ipcHeader e (m.size % 2 ^ 32) ++ m.content e)) ∧
      (Steady p.answers → rc = .ok) := by
  have hsum : ((m.data.map List.length).sum + sizeofServMsg) % 2 ^ 32 = m.size % 2 ^ 32 := by
    rw [← List.length_flatten, Nat.add_comm]
    rfl
  have hflat : (ipcHeader e (m.size % 2 ^ 32) :: e.bytes sizeofServMsg m.op :: m.data).flatten =
      ipcHeader e (m.size % 2 ^ 32) ++ m.content e := by
    simp [Message.content]
  obtain ⟨err, p', hrun, hbytes, hok⟩ := stdSocketWrite_spec
    (ipcHeader e (m.size % 2 ^ 32) :: e.bytes sizeofServMsg m.op :: m.data)
    (by rw [hflat]; simpa using hsize) p
  rw [hflat] at hbytes
  refine ⟨if err then .fail else .ok, p', ?_, fun h => hbytes ?_, fun h => by rw [hok h]; rfl⟩
  · simp only [stdEventUtilEventSend, hsum, hrun, exec_bind_ok]
    rfl
  · cases err with
    | false => rfl
    | true => cases h

/-- A send ends; one that returns OK has put the frame on the stream. -/
theorem send_spec (hsize : m.size < 2 ^ 32) : ∃ rc p',
    stdEventUtilEventSend e p m.op m.data = .ok (rc, p') ∧
      (rc = .ok → p'.bytes = p.bytes ++ m.frame e) ∧ (Steady p.answers → rc = .ok) := by
  obtain ⟨rc, p', hrun, hbytes, hok⟩ := send_wrapped (e := e) (p := p) (m := m) (by omega)
  rw [Nat.mod_eq_of_lt hsize] at hbytes
  exact ⟨rc, p', hrun, hbytes, hok⟩

/-- What a read of `n` bytes delivers when they are there. -/
theorem stdRead_exact {n : Nat} (bs rest : List UInt8) (hp : p.Patient) (hn : n < 2 ^ 31)
    (hbytes : p.bytes = bs ++ rest) (hlen : bs.length = n) :
    ∃ p' : Peer, stdRead p n = .ok (n, bs, p') ∧ p'.bytes = rest ∧ p'.Patient := by
  obtain ⟨p', hrun, hrest, hp'⟩ := stdRead_spec hp hn
  have hmin : min n p.bytes.length = n := by
    rw [hbytes, List.length_append]
    omega
  rw [hmin, hbytes, ← hlen, List.take_left' rfl] at hrun
  rw [hbytes, ← hlen, List.drop_left' rfl] at hrest
  exact ⟨p', by rw [← hlen]; exact hrun, hrest, hp'⟩

variable (junk) in
/-- The header of a frame is read as its size. -/
theorem readHeader_spec {n : Nat} {rest : List UInt8} (hp : p.Patient) (hn : n < 2 ^ 32)
    (hbytes : p.bytes = ipcHeader e n ++ rest) :
    ∃ p' : Peer, readHeader e junk p = .ok (some n, p') ∧ p'.bytes = rest ∧ p'.Patient := by
  obtain ⟨p₁, h₁, hrest₁, hp₁⟩ := stdRead_exact (e.bytes 4 8 ++ e.bytes 4 STD_CMN_IPC_VER)
    (e.bytes 4 0 ++ e.bytes 4 n ++ rest) (n := sizeofIpcHdr)
    hp (by decide) (by rw [hbytes]; simp [ipcHeader, sizeofIpcData, sizeofIpcHdr]) (by simp; rfl)
  obtain ⟨p₂, h₂, hrest₂, hp₂⟩ := stdRead_exact (e.bytes 4 0 ++ e.bytes 4 n) rest (n := 8) hp₁
    (by decide) (by rw [hrest₁]) (by simp)
  have hfirst : e.nat ((e.bytes 4 8 ++ e.bytes 4 STD_CMN_IPC_VER).take 4) = 8 := by
    rw [List.take_left' (by simp), Endian.nat_bytes (by decide)]
  have hsize : e.nat (((e.bytes 4 0 ++ e.bytes 4 n ++ junk.drop
      (e.bytes 4 0 ++ e.bytes 4 n).length).drop 4).take 4) = n := by
    rw [List.append_assoc, List.drop_left' (by simp), List.take_left' (by simp),
      Endian.nat_bytes (by omega)]
  refine ⟨p₂, ?_, hrest₂, hp₂⟩
  rw [readHeader, h₁, exec_bind_ok]
  simp only [hfirst, ne_eq, not_true_eq_false, if_false]
  rw [if_neg (by decide), show toInt32 8 = ((8 : Nat) : Int) from rfl, h₂]
  simp only [exec_bind_ok, not_true_eq_false, if_false, hsize]
  rfl

/-- The vector after it was grown to `n` bytes, if it had fewer. -/
def grown (buff : Mem) (n : Nat) : Mem := buff ++ List.replicate (n - buff.length) 0

theorem length_grown (buff : Mem) (n : Nat) : (grown buff n).length = max buff.length n := by
  simp only [grown, List.length_append, List.length_replicate]
  omega

/-- The vector after a frame was received into it: behind the frame it is as before. -/
def overlay (buff : Mem) (bs : List UInt8) : Mem := bs ++ buff.drop bs.length

theorem drop_grown (buff : Mem) (n : Nat) : (grown buff n).drop n = buff.drop n := by
  rw [grown, List.drop_append]
  simp

theorem not_toobig {buff : Mem} {n : Nat} {resize : Bool}
    (hfit : n ≤ buff.length ∨ resize = true) :
    (decide (buff.length < n) && !resize) = false := by
  rcases hfit with hle | hr
  · rw [decide_eq_false (by omega), Bool.false_and]
  · rw [hr, Bool.not_true, Bool.and_false]

variable (junk) in
/-- A frame whose size fits an `int` is received into a buffer that is large enough or may grow. -/
theorem recv_spec (bs rest : List UInt8) (hp : p.Patient) (hn : bs.length < 2 ^ 31)
    (hbytes : p.bytes = ipcHeader e bs.length ++ bs ++ rest) (buff : Mem) (resize : Bool)
    (hfit : bs.length ≤ buff.length ∨ resize = true) :
    ∃ p' : Peer, stdEventUtilEventRecv e junk p buff resize = .ok (.ok, overlay buff bs, p') ∧
      p'.bytes = rest ∧ p'.Patient := by
  obtain ⟨p₁, h₁, hrest₁, hp₁⟩ := readHeader_spec junk hp (by omega)
    (hbytes.trans (List.append_assoc ..))
  obtain ⟨p₂, h₂, hrest₂, hp₂⟩ := stdRead_exact _ _ hp₁ hn hrest₁ rfl
  have hint : toInt32 bs.length = (bs.length : Int) := if_pos hn
  refine ⟨p₂, ?_, hrest₂, hp₂⟩
  rw [stdEventUtilEventRecv, h₁, exec_bind_ok]
  simp only [not_toobig hfit, Bool.false_eq_true, if_false]
  rw [hint, h₂, exec_bind_ok]
  have hdrop := drop_grown buff bs.length
  rw [grown] at hdrop
  simp only [if_true, hdrop]
  rfl

variable (junk) in
/-- A size from `2 ^ 31` on is not read at all. -/
theorem recv_huge {n : Nat} (rest : List UInt8) (hp : p.Patient) (hn : n < 2 ^ 32)
    (hhuge : 2 ^ 31 ≤ n) (hbytes : p.bytes = ipcHeader e n ++ rest) (buff : Mem) (resize : Bool)
    (hfit : n ≤ buff.length ∨ resize = true) :
    ∃ p' : Peer, stdEventUtilEventRecv e junk p buff resize =
        .ok (if n = 2 ^ 32 - 1 then .ok else .fail, grown buff n, p') ∧ p'.bytes = rest ∧
      p'.Patient := by
  obtain ⟨p₁, h₁, hrest₁, hp₁⟩ := readHeader_spec junk hp hn hbytes
  have hint : toInt32 n = (n : Int) - 2 ^ 32 := if_neg (by omega)
  have hread := stdRead_negative p₁ (toInt32 n) (by omega) (by omega)
  refine ⟨p₁, ?_, hrest₁, hp₁⟩
  rw [stdEventUtilEventRecv, h₁, exec_bind_ok]
  simp only [not_toobig hfit, Bool.false_eq_true, if_false, hread, exec_bind_ok,
    List.length_nil, List.drop_zero, List.nil_append]
  by_cases hmax : n = 2 ^ 32 - 1
  · rw [if_pos (by rw [hint]; omega), if_pos hmax]
    rfl
  · rw [if_neg (by rw [hint]; omega), if_neg hmax]
    rfl

/-! ## Whole sequences -/

/-- Send messages one after the other: the codes returned and the peer. -/
def sendAll (e : Endian) : Peer → List Message → Exec (List StdError × Peer)
  | p, [] => .ok ([], p)
  | p, m :: ms => do
    let (rc, p) ← stdEventUtilEventSend e p m.op m.data
    let (rcs, p) ← sendAll e p ms
    return (rc :: rcs, p)

/-- Receive `n` times into one vector that may grow: the codes returned, each with the vector, and
the peer. -/
def recvAll (e : Endian) (junk : List UInt8) : Nat → Peer → Mem → Exec (List (StdError × Mem) × Peer)
  | 0, p, _ => .ok ([], p)
  | n + 1, p, buff => do
    let (rc, buff, p) ← stdEventUtilEventRecv e junk p buff true
    let (rest, p) ← recvAll e junk n p buff
    return ((rc, buff) :: rest, p)

/-- The frames of messages. -/
def frames (e : Endian) (ms : List Message) : List UInt8 := ms.flatMap (Message.frame e)

/-- Sends that all return OK have put the frames on the stream in order. -/
theorem sendAll_spec (ms : List Message) : ∀ {p p' : Peer} {rcs : List StdError},
    (∀ m ∈ ms, m.size < 2 ^ 32) → sendAll e p ms = .ok (rcs, p') → (∀ rc ∈ rcs, rc = .ok) →
    p'.bytes = p.bytes ++ frames e ms := by
  induction ms with
  | nil =>
    intro p p' rcs _ hrun _
    obtain ⟨-, rfl⟩ := Prod.mk.inj (Except.ok.inj hrun)
    simp [frames]
  | cons m ms ih =>
    intro p p' rcs hsize hrun hok
    obtain ⟨rc, p₁, hsend, hbytes, -⟩ := send_spec (e := e) (p := p) (hsize m (by simp))
    rw [sendAll, hsend, exec_bind_ok] at hrun
    obtain ⟨⟨rcs', p₂⟩, hrest, heq⟩ := exec_bind_eq_ok.mp hrun
    obtain ⟨rfl, rfl⟩ := Prod.mk.inj (Except.ok.inj heq)
    rw [ih (fun m' hm' => hsize m' (by simp [hm'])) hrest (fun rc' hrc' => hok rc' (by simp [hrc'])),
      hbytes (hok rc (by simp))]
    simp [frames]

/-- The messages arrive: every call returns OK and leaves its message at the front of the vector,
and nothing is left in the stream. -/
def Arrive (e : Endian) (junk : List UInt8) (ms : List Message) (p : Peer) (buff : Mem) : Prop :=
  ∃ rs p', recvAll e junk ms.length p buff = .ok (rs, p') ∧
    List.Forall₂ (fun (m : Message) (r : StdError × Mem) => r.1 = .ok ∧
      r.2.take m.size = m.content e) ms rs ∧ p'.bytes = []

theorem frame_eq (e : Endian) (m : Message) :
    m.frame e = ipcHeader e (m.content e).length ++ m.content e := by
  rw [Message.frame, Message.length_content]

variable (junk) in
/-- Messages whose sizes fit an `int` arrive. -/
theorem arrive_of_lt (ms : List Message) : ∀ {p : Peer} (buff : Mem) (rest : List UInt8),
    (∀ m ∈ ms, m.size < 2 ^ 31) → p.Patient → p.bytes = frames e ms ++ rest →
    ∃ rs p', recvAll e junk ms.length p buff = .ok (rs, p') ∧
      List.Forall₂ (fun (m : Message) (r : StdError × Mem) => r.1 = .ok ∧
        r.2.take m.size = m.content e) ms rs ∧ p'.bytes = rest ∧ p'.Patient := by
  induction ms with
  | nil =>
    intro p buff rest _ hp hbytes
    exact ⟨[], p, rfl, .nil, by simpa [frames] using hbytes, hp⟩
  | cons m ms ih =>
    intro p buff rest hsize hp hbytes
    have hm := hsize m (by simp)
    obtain ⟨p₁, h₁, hrest₁, hp₁⟩ := recv_spec junk (m.content e) (frames e ms ++ rest) hp
      (by simpa using hm)
      (by rw [hbytes, ← frame_eq]; simp [frames]) buff true (.inr rfl)
    obtain ⟨rs, p', hrun, hall, hrest', hp'⟩ :=
      ih (overlay buff (m.content e)) _ (fun m' hm' => hsize m' (by simp [hm'])) hp₁ hrest₁
    refine ⟨(.ok, overlay buff (m.content e)) :: rs, p', ?_, .cons ⟨rfl, ?_⟩ hall, hrest', hp'⟩
    · rw [List.length_cons, recvAll, h₁, exec_bind_ok]
      simp only [hrun, exec_bind_ok]
      rfl
    · rw [overlay, List.take_left' (by simp)]

variable (junk) in
/-- A vector of `2 ^ 32` bytes keeps those from `2 ^ 31` on while smaller frames are received, and
the first frame that does not fit an `int` does not arrive when it should change one of them. -/
theorem not_arrive (ms : List Message) : (∀ m ∈ ms, m.size < 2 ^ 32) →
    (∃ m ∈ ms, 2 ^ 31 ≤ m.size) → ∃ c : UInt8, ∀ {p : Peer} (buff : Mem), p.Patient →
      p.bytes = frames e ms → buff.length = 2 ^ 32 →
      (∀ i, 2 ^ 31 ≤ i → i < 2 ^ 32 → buff[i]? = some c) → ¬ Arrive e junk ms p buff := by
  induction ms with
  | nil => rintro - ⟨m, hm, -⟩; simp at hm
  | cons m ms ih =>
    intro hsize hhuge
    have hm := hsize m (by simp)
    by_cases hbig : 2 ^ 31 ≤ m.size
    · obtain ⟨d, hd⟩ : ∃ d, (m.content e)[2 ^ 31]? = some d ∨ m.size ≤ 2 ^ 31 := by
        by_cases hle : m.size ≤ 2 ^ 31
        · exact ⟨0, .inr hle⟩
        · exact ⟨_, .inl (List.getElem?_eq_getElem (by simpa using hle))⟩
      refine ⟨d + 1, ?_⟩
      rintro p buff hp hbytes hlen hc ⟨rs, p', hrun, hall, -⟩
      obtain ⟨p₁, h₁, -, -⟩ := recv_huge junk (m.content e ++ frames e ms) (e := e) (n := m.size) hp
        hm hbig
        (by rw [hbytes]; simp [frames, Message.frame]) buff true (.inr rfl)
      rw [List.length_cons, recvAll, h₁, exec_bind_ok] at hrun
      obtain ⟨⟨rs', p₂⟩, -, heq⟩ := exec_bind_eq_ok.mp hrun
      obtain ⟨rfl, -⟩ := Prod.mk.inj (Except.ok.inj heq)
      cases hall with
      | cons hhead _ =>
        obtain ⟨hok, htake⟩ := hhead
        by_cases hmax : m.size = 2 ^ 32 - 1
        · -- the call returns OK and has left the vector as it was
          rcases hd with hd | hd
          · rw [← htake, List.getElem?_take_of_lt (by omega), grown,
              List.getElem?_append_left (by omega), hc _ le_rfl (by omega),
              Option.some_inj] at hd
            simp at hd
          · omega
        · rw [if_neg hmax] at hok
          cases hok
    · have hhuge' : ∃ m ∈ ms, 2 ^ 31 ≤ m.size := by
        obtain ⟨m', hm', hbig'⟩ := hhuge
        rcases List.mem_cons.mp hm' with rfl | hm'
        · exact absurd hbig' hbig
        · exact ⟨m', hm', hbig'⟩
      obtain ⟨c, hc⟩ := ih (fun m' hm' => hsize m' (by simp [hm'])) hhuge'
      refine ⟨c, ?_⟩
      rintro p buff hp hbytes hlen hbuff ⟨rs, p', hrun, hall, hend⟩
      obtain ⟨p₁, h₁, hrest₁, hp₁⟩ := recv_spec junk (m.content e) (frames e ms) hp
        (by simpa using hbig)
        (by rw [hbytes, ← frame_eq]; simp [frames]) buff true (.inr rfl)
      rw [List.length_cons, recvAll, h₁, exec_bind_ok] at hrun
      obtain ⟨⟨rs', p₂⟩, hrest, heq⟩ := exec_bind_eq_ok.mp hrun
      obtain ⟨rfl, rfl⟩ := Prod.mk.inj (Except.ok.inj heq)
      cases hall with
      | cons _ htail =>
        refine hc (overlay buff (m.content e)) hp₁ hrest₁ ?_ (fun i hi hi' => ?_)
          ⟨rs', _, hrest, htail, hend⟩
        · rw [overlay, List.length_append, List.length_drop, Message.length_content]
          omega
        · rw [overlay, List.getElem?_append_right (by simp; omega), List.getElem?_drop,
            Message.length_content, Nat.add_sub_cancel' (by omega)]
          exact hbuff i hi hi'

/-- Messages sent over one stream, whatever pieces it is cut into on both sides, arrive in every
vector if and only if all their sizes fit an `int`. -/
theorem frames_arrive_iff (e : Endian) (junk : List UInt8) (ms : List Message)
    (hsize : ∀ m ∈ ms, m.size < 2 ^ 32) (answers : List Answer) (rcs : List StdError) (sent : Peer)
    (hsend : sendAll e ⟨[], answers⟩ ms = .ok (rcs, sent)) (hok : ∀ rc ∈ rcs, rc = .ok) :
    (∀ (as : List Answer) (buff : Mem), Benign STD_MAX_EINTR as →
      Arrive e junk ms ⟨sent.bytes, as⟩ buff) ↔ ∀ m ∈ ms, m.size < 2 ^ 31 := by
  have hbytes : sent.bytes = frames e ms := by
    simpa using sendAll_spec ms hsize hsend hok
  rw [hbytes]
  constructor
  · intro h m hm
    by_contra hbig
    obtain ⟨c, hc⟩ := not_arrive junk (e := e) ms hsize ⟨m, hm, not_lt.mp hbig⟩
    refine hc (p := ⟨frames e ms, []⟩) (List.replicate (2 ^ 32) c) trivial rfl
      List.length_replicate (fun i _ hi => ?_) (h [] _ trivial)
    rw [List.getElem?_replicate, if_pos hi]
  · intro hsmall as buff has
    obtain ⟨rs, p', hrun, hall, hrest, -⟩ := arrive_of_lt junk (e := e) ms buff []
      (p := ⟨frames e ms, as⟩) hsmall has (List.append_nil _).symm
    exact ⟨rs, p', hrun, hall, hrest⟩

/-- Two messages, the second in two pieces, are sent in parts with an interruption and a wait. -/
theorem frames_arrive_iff_sample :
    let ms : List Message := [⟨2, [[7]]⟩, ⟨3, [[8], [9, 9]]⟩]
    let answers : List Answer := [.part 4, .eintr, .part 0, .again true, .part 30]
    ∃ rcs sent, sendAll .little ⟨[], answers⟩ ms = .ok (rcs, sent) ∧
      ((∀ (as : List Answer) (buff : Mem), Benign STD_MAX_EINTR as →
        Arrive .little [] ms ⟨sent.bytes, as⟩ buff) ↔ ∀ m ∈ ms, m.size < 2 ^ 31) :=
  ⟨_, _, rfl, frames_arrive_iff .little [] [⟨2, [[7]]⟩, ⟨3, [[8], [9, 9]]⟩] (by decide)
    [.part 4, .eintr, .part 0, .again true, .part 30] _ _ rfl (by decide)⟩

/-- A message whose size does not fit an `int` is sent over a stream that nothing disturbs and does
not arrive. -/
theorem huge_lost {m : Message} (hm : m.size < 2 ^ 32 - 1) (hbig : 2 ^ 31 ≤ m.size) (buff : Mem) :
    ∃ sent, sendAll e ⟨[], []⟩ [m] = .ok ([.ok], sent) ∧
      ¬ Arrive e junk [m] ⟨sent.bytes, []⟩ buff := by
  obtain ⟨rc, sent, hsend, hbytes, hok⟩ := send_spec (e := e) (p := ⟨[], []⟩) (m := m) (by omega)
  obtain rfl : rc = .ok := hok (by simp [Steady])
  refine ⟨sent, ?_, ?_⟩
  · rw [sendAll, hsend]
    rfl
  · rintro ⟨rs, p', hrun, hall, -⟩
    obtain ⟨p₁, h₁, -, -⟩ := recv_huge junk (m.content e) (e := e) (p := ⟨sent.bytes, []⟩) trivial
      (by omega) hbig
      (by rw [hbytes rfl]; simp [Message.frame]) buff true (.inr rfl)
    rw [List.length_singleton, recvAll, h₁, exec_bind_ok] at hrun
    obtain ⟨⟨rs', p₂⟩, -, heq⟩ := exec_bind_eq_ok.mp hrun
    obtain ⟨rfl, -⟩ := Prod.mk.inj (Except.ok.inj heq)
    cases hall with
    | cons hhead _ =>
      have hfail := hhead.1
      rw [if_neg (by omega)] at hfail
      cases hfail

/-- A message with one piece of `n` bytes. -/
def bulkMessage (n : Nat) : Message := ⟨2, [List.replicate n 0]⟩

theorem size_bulkMessage (n : Nat) : (bulkMessage n).size = 4 + n := by
  rw [bulkMessage, Message.size, List.flatten_singleton, List.length_replicate, sizeofServMsg]

theorem bulk_lost {n : Nat} (hn : 4 + n < 2 ^ 32 - 1) (hbig : 2 ^ 31 ≤ 4 + n) (buff : Mem) :
    (bulkMessage n).size < 2 ^ 32 ∧ ∃ sent,
      sendAll e ⟨[], []⟩ [bulkMessage n] = .ok ([.ok], sent) ∧
        ¬ Arrive e junk [bulkMessage n] ⟨sent.bytes, []⟩ buff := by
  rw [size_bulkMessage]
  exact ⟨by omega, huge_lost (by rwa [size_bulkMessage]) (by rwa [size_bulkMessage]) buff⟩

/-- A message of `2 ^ 31` bytes is sent and does not arrive. -/
theorem huge_frame_lost : (bulkMessage (2 ^ 31 - 4)).size < 2 ^ 32 ∧ ∃ sent,
    sendAll .little ⟨[], []⟩ [bulkMessage (2 ^ 31 - 4)] = .ok ([.ok], sent) ∧
      ¬ Arrive .little [] [bulkMessage (2 ^ 31 - 4)] ⟨sent.bytes, []⟩ [] :=
  bulk_lost (by omega) (by omega) []

end OpxCommonUtils.Event
