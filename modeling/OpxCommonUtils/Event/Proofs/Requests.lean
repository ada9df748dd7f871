import OpxCommonUtils.Event.Client
import OpxCommonUtils.Event.Proofs.CallerBuffer
import OpxCommonUtils.Event.Proofs.Routing

/-!
# What a request does

The frames a client sends to register, to deregister and to publish, and what the handler makes of
each of them, whatever else is in its vector.
-/

namespace OpxCommonUtils.Event

open Io

/-- A request of a client. -/
inductive ClientRequest where
  | register (key : StdEventKey)
  | deregister (key : StdEventKey)
  | publish (key : StdEventKey) (data : List UInt8)

/-- A message with its data as it lies in memory. -/
def msgBytes (e : Endian) (key : StdEventKey) (data : List UInt8) : Mem :=
  key.bytes e ++ e.bytes 4 data.length ++ data

namespace ClientRequest

/-- What is sent. -/
def message (e : Endian) : ClientRequest → Message
  | .register key => ⟨event_serv_msg_t_ADD_REG, [key.bytes e]⟩
  | .deregister key => ⟨event_serv_msg_t_DEL_REG, [key.bytes e]⟩
  | .publish key data => ⟨event_serv_msg_t_PUBLISH, [msgBytes e key data]⟩

/-- Keys fit their array, and data has at most `N` bytes. -/
def Ok (N : Nat) : ClientRequest → Prop
  | .register key | .deregister key => key.len ≤ STD_EVENT_KEY_MAX
  | .publish key data => key.len ≤ STD_EVENT_KEY_MAX ∧ data.length ≤ N

end ClientRequest

section
variable {e : Endian} {N : Nat}

@[simp] theorem length_keyBytes (e : Endian) (key : StdEventKey) : (key.bytes e).length = 68 := by
  have hlen : (List.ofFn key.eventKey).length = 16 := List.length_ofFn
  rw [StdEventKey.bytes, List.length_append, List.length_flatMap]
  simp only [Endian.length_bytes, List.map_const', List.sum_replicate_nat, hlen]

@[simp] theorem length_msgBytes (e : Endian) (key : StdEventKey) (data : List UInt8) :
    (msgBytes e key data).length = 72 + data.length := by
  simp only [msgBytes, List.length_append, length_keyBytes, Endian.length_bytes]

theorem ClientRequest.size_le {r : ClientRequest} (h : r.Ok N) : (r.message e).size ≤ 76 + N := by
  cases r with
  | register key | deregister key =>
    simp only [message, size_eq, List.flatten_singleton, length_keyBytes]
    omega
  | publish key data =>
    have hdata := h.2
    simp only [message, size_eq, List.flatten_singleton, length_msgBytes]
    omega

/-- A publication is a request to publish. -/
theorem publishes_message (e : Endian) (key : StdEventKey) (data : List UInt8) :
    Publishes e (key.bytes e) data ((ClientRequest.publish key data).message e) :=
  ⟨rfl, by simp [ClientRequest.message, msgBytes]⟩

/-! ## The sends -/

/-- What every call of the kernel keeps holds after all of them. -/
theorem processOp_keeps {α σ : Type} {P : σ → Prop} {handler : List (List α) → σ → Rc × σ}
    (hkeeps : ∀ iov w, P w → P (handler iov w).2) (all : Bool) (iov : List (List α)) :
    ∀ (fuel total : Nat) (w : σ), P w → Ensures (processOp handler all iov fuel total w)
      fun r => P r.2.2 := by
  intro fuel
  induction fuel with
  | zero =>
    intro total w _ r hrun
    cases hrun
  | succ fuel ih =>
    intro total w hw
    have hnext := hkeeps (fixOffset total iov) w hw
    rw [processOp]
    split
    · exact ensures_ok.mpr hw
    generalize handler (fixOffset total iov) w = r at hnext
    obtain ⟨rc, w'⟩ := r
    cases rc with
    | eintr => exact ih total w' hnext
    | again ready =>
      cases ready with
      | true => exact ih total w' hnext
      | false => exact ensures_ok.mpr hnext
    | fail => exact ensures_ok.mpr hnext
    | done n =>
      dsimp only
      split
      · split <;> exact ensures_ok.mpr hnext
      · split
        · exact ih (total + n) w' hnext
        · exact ensures_ok.mpr hnext

theorem Steady.sendmsg (iov : List (List UInt8)) (p : Peer) (h : Steady p.answers) :
    Steady (p.sendmsg iov).2.answers := by
  obtain ⟨bytes, answers⟩ := p
  cases answers with
  | nil => exact h
  | cons a as => cases a <;> exact h.tail

/-- A send on a stream that works puts the frame on it, and the stream goes on working. -/
theorem send_steady {p : Peer} (hp : Steady p.answers) {m : Message} (hm : m.size < 2 ^ 32) :
    ∃ p', stdEventUtilEventSend e p m.op m.data = .ok (.ok, p') ∧
      p'.bytes = p.bytes ++ m.frame e ∧ Steady p'.answers := by
  obtain ⟨rc, p', hrun, hbytes, hok⟩ := send_spec (e := e) (p := p) hm
  obtain rfl := hok hp
  refine ⟨p', hrun, hbytes rfl, ?_⟩
  rw [stdEventUtilEventSend] at hrun
  obtain ⟨⟨err, p₁⟩, hwrite, hret⟩ := exec_bind_eq_ok.mp hrun
  obtain ⟨-, rfl⟩ := Prod.mk.inj (Except.ok.inj hret)
  rw [stdSocketWrite] at hwrite
  obtain ⟨⟨n, err', p₂⟩, hop, hret⟩ := exec_bind_eq_ok.mp hwrite
  obtain ⟨-, rfl⟩ := Prod.mk.inj (Except.ok.inj hret)
  exact processOp_keeps (P := fun p : Peer => Steady p.answers) Steady.sendmsg true _ _ _ _ hp _ hop

/-- Frames for keys. -/
theorem clientSendKeyOp_spec {op : Nat} {toRequest : StdEventKey → ClientRequest}
    (hmsg : ∀ key, (toRequest key).message e = ⟨op, [key.bytes e]⟩) (keys : List StdEventKey) :
    ∀ {p : Peer}, Steady p.answers → ∃ p', clientSendKeyOp e op p keys = .ok (.ok, p') ∧
      p'.bytes = p.bytes ++ frames e (keys.map fun key => (toRequest key).message e) := by
  induction keys with
  | nil => exact fun _ => ⟨_, rfl, by simp [frames]⟩
  | cons key keys ih =>
    intro p hp
    obtain ⟨p₁, h₁, hbytes₁, hp₁⟩ := send_steady (e := e) hp (m := ⟨op, [key.bytes e]⟩)
      (by simp [size_eq])
    obtain ⟨p', hrun, hbytes⟩ := ih hp₁
    refine ⟨p', ?_, ?_⟩
    · rw [clientSendKeyOp, h₁, exec_bind_ok]
      exact hrun
    · rw [hbytes, hbytes₁, List.map_cons, hmsg]
      simp [frames]

/-! ## What the handler reads -/

/-- Pieces of one length one after the other. -/
theorem at_flatMap {α : Type} {mem : Mem} {f : α → List UInt8} {k : Nat}
    (hf : ∀ a, (f a).length = k) (l : List α) : ∀ {p : Nat}, mem.At p (l.flatMap f) →
    ∀ (i : Nat) (hi : i < l.length), mem.At (p + k * i) (f l[i]) := by
  induction l with
  | nil => exact fun _ i hi => absurd hi (Nat.not_lt_zero i)
  | cons a l ih =>
    intro p h i hi
    rw [List.flatMap_cons, Mem.at_append] at h
    cases i with
    | zero => exact h.1
    | succ i =>
      have hnext := ih (hf a ▸ h.2) i (Nat.lt_of_succ_lt_succ hi)
      rwa [show p + k + k * i = p + k * (i + 1) by rw [Nat.mul_succ]; omega] at hnext

variable {mem : Mem} {key : StdEventKey}

/-- The elements that are read in memory are those of the key. -/
theorem keyList_eq (h : mem.At 4 (key.bytes e)) : keyList e mem 4 = key.list := by
  funext ix
  rw [keyList, StdEventKey.list]
  by_cases hix : ix < STD_EVENT_KEY_MAX
  · rw [if_pos hix, dif_pos hix]
    have hat := at_flatMap (fun id : UInt32 => Endian.length_bytes e 4 id.toNat)
      (List.ofFn key.eventKey) (Mem.at_append.mp h).2 ix (by simpa using hix)
    rw [List.getElem_ofFn, Endian.length_bytes] at hat
    have hload := hat.load
    rw [Endian.length_bytes] at hload
    rw [load32, hload]
    change Except.ok (UInt32.ofNat (e.nat (e.bytes 4 _))) = _
    rw [Endian.nat_bytes (UInt32.toNat_lt _), UInt32.ofNat_toNat]
  · rw [if_neg hix, dif_neg hix]

/-- So is the length. -/
theorem load32_len (h : mem.At 4 (key.bytes e)) (hlen : key.len ≤ STD_EVENT_KEY_MAX) :
    load32 e mem 4 = .ok key.len := by
  have hload := (Mem.at_append.mp h).1.load
  rw [Endian.length_bytes] at hload
  rw [load32, hload]
  change Except.ok (e.nat (e.bytes 4 key.len)) = _
  rw [Endian.nat_bytes (Nat.lt_of_le_of_lt hlen (by decide))]

theorem load32_op {op : Nat} (h : mem.At 0 (e.bytes 4 op)) (hop : op < 2 ^ 32) :
    load32 e mem 0 = .ok op := by
  have hload := h.load
  rw [Endian.length_bytes] at hload
  rw [load32, hload]
  change Except.ok (e.nat (e.bytes 4 op)) = _
  rw [Endian.nat_bytes hop]

/-! ## The registry -/

variable {t : StdClientTree} {R : Registrations} {fd : Int}

variable (fd) in
/-- A registration succeeds. -/
theorem regClient_spec (h : t.Registers R) (hlen : key.len ≤ STD_EVENT_KEY_MAX) :
    ∃ t', t.regClient fd key.list key.len = .ok (true, t') ∧
      t'.Registers (insert (fd, key.toList) R) := by
  rcases StdNode.update_spec (StdNode.local_insert fd) true key.toList 0 t.head
      (key.lists hlen) with ⟨head, hrun, hat⟩ | ⟨-, hcreate, -⟩
  · rw [key.length_toList hlen] at hrun
    refine ⟨⟨head⟩, by rw [StdClientTree.regClient, hrun]; rfl, fun fd' K => ?_⟩
    rw [hat, Set.mem_insert_iff, ← h fd' K, Prod.mk.injEq]
    by_cases hK : K = key.toList
    · simp [hK]
    · simp [hK]
  · cases hcreate

variable (fd) in
/-- So does a deregistration. -/
theorem deregClient_spec (h : t.Registers R) (hlen : key.len ≤ STD_EVENT_KEY_MAX) :
    ∃ ret t', t.deregClient fd key.list key.len = .ok (ret, t') ∧
      t'.Registers (R \ {(fd, key.toList)}) := by
  rcases StdNode.update_spec (StdNode.local_remove fd) false key.toList 0 t.head
      (key.lists hlen) with ⟨head, hrun, hat⟩ | ⟨hrun, -, hnone⟩
  · rw [key.length_toList hlen] at hrun
    refine ⟨true, ⟨head⟩, by rw [StdClientTree.deregClient, hrun]; rfl, fun fd' K => ?_⟩
    rw [hat, Set.mem_sdiff, ← h fd' K, Set.mem_singleton_iff, Prod.mk.injEq]
    by_cases hK : K = key.toList
    · simp [hK, and_comm]
    · simp [hK]
  · rw [key.length_toList hlen] at hrun
    refine ⟨true, t, by rw [StdClientTree.deregClient, hrun]; rfl, fun fd' K => ?_⟩
    rw [Set.mem_sdiff, ← h fd' K, Set.mem_singleton_iff, Prod.mk.injEq]
    refine (and_iff_left_of_imp fun hin heq => ?_).symm
    rw [heq.2, hnone] at hin
    simp at hin

/-! ## The handler -/

variable {tail : Mem} {size : Nat}

/-- What the handler does with a request that lies in front of its vector. -/
inductive Handled (e : Endian) (fd : Int) (t : StdClientTree) (R : Registrations) :
    ClientRequest → Effect Unit → Prop
  | register {key : StdEventKey} {t' : StdClientTree} :
      t'.Registers (insert (fd, key.toList) R) →
      Handled e fd t R (.register key) ⟨true, t', none, none, ()⟩
  | deregister {key : StdEventKey} {t' : StdClientTree} :
      t'.Registers (R \ {(fd, key.toList)}) →
      Handled e fd t R (.deregister key) ⟨true, t', none, none, ()⟩
  | publish {key : StdEventKey} {data : List UInt8} {log : List (Int × Bool)} :
      (log.map Prod.fst).Nodup →
      (∀ c, c ∈ log.map Prod.fst ↔ ∃ K, K ≠ [] ∧ K <+: key.toList ∧ (c, K) ∈ R) →
      Handled e fd t R (.publish key data) ⟨true, t, some (msgBytes e key data, log), none, ()⟩

variable (fd size tail) in
/-- A request is handled as its key and its data say. -/
theorem handleFrame_request (ht : t.Registers R) {r : ClientRequest} (hr : r.Ok N)
    (hN : 76 + N < 2 ^ 31) (send : Send Unit)
    (hsize : (r.message e).size ≤ size) : ∃ eff,
    handleFrame e fd send size ((r.message e).content e ++ tail) t () = .ok eff ∧
      Handled e fd t R r eff := by
  have hop : ∀ {op : Nat} {bs : List UInt8}, op < 2 ^ 32 →
      load32 e (e.bytes sizeofServMsg op ++ bs ++ tail) 0 = .ok op := by
    intro op bs hop
    refine load32_op ⟨[], bs ++ tail, ?_, rfl⟩ hop
    rw [List.nil_append, List.append_assoc]
    rfl
  have hat : ∀ {op : Nat} {bs : List UInt8},
      Mem.At (e.bytes sizeofServMsg op ++ bs ++ tail) 4 bs :=
    fun {op bs} => ⟨e.bytes sizeofServMsg op, tail, rfl, Endian.length_bytes ..⟩
  have hbig : ¬ size < sizeofServMsg := by
    rw [size_eq] at hsize
    rw [sizeofServMsg]
    omega
  cases r with
  | register key =>
    obtain ⟨t', hrun, ht'⟩ := regClient_spec fd ht hr
    refine ⟨_, ?_, .register ht'⟩
    rw [handleFrame, if_neg hbig]
    simp only [ClientRequest.message, Message.content, List.flatten_singleton]
    rw [hop (by decide), exec_bind_ok, if_pos rfl, load32_len hat hr, exec_bind_ok, keyList_eq hat,
      hrun]
    rfl
  | deregister key =>
    obtain ⟨ret, t', hrun, ht'⟩ := deregClient_spec fd ht hr
    refine ⟨_, ?_, .deregister ht'⟩
    rw [handleFrame, if_neg hbig]
    simp only [ClientRequest.message, Message.content, List.flatten_singleton]
    rw [hop (by decide), exec_bind_ok, if_neg (by decide), if_pos rfl, load32_len hat hr,
      exec_bind_ok, keyList_eq hat, hrun]
    rfl
  | publish key data =>
    obtain ⟨hlen, hdata⟩ := hr
    obtain ⟨log, _, hrun, hnodup, hmem⟩ := ht.publish send () hlen
    refine ⟨_, ?_, .publish hnodup hmem⟩
    have hmsg : Mem.At (e.bytes sizeofServMsg event_serv_msg_t_PUBLISH ++ msgBytes e key data ++
        tail) 4 (msgBytes e key data) := hat
    obtain ⟨hhead, -⟩ := Mem.at_append.mp hmsg
    obtain ⟨hkey, hdlen⟩ := Mem.at_append.mp hhead
    have hload := hmsg.load
    rw [length_msgBytes] at hload
    have hload32 : load32 e (e.bytes sizeofServMsg event_serv_msg_t_PUBLISH ++
        msgBytes e key data ++ tail) (4 + sizeofEventKey) = .ok data.length := by
      have hbytes := hdlen.load
      rw [Endian.length_bytes, length_keyBytes] at hbytes
      rw [load32, sizeofEventKey, hbytes]
      change Except.ok (e.nat (e.bytes 4 data.length)) = _
      rw [Endian.nat_bytes (by omega)]
    rw [size_eq] at hsize
    simp only [ClientRequest.message, List.flatten_singleton, length_msgBytes] at hsize
    rw [handleFrame, if_neg hbig]
    simp only [ClientRequest.message, Message.content, List.flatten_singleton]
    rw [hop (by decide), exec_bind_ok, if_neg (by decide), if_neg (by decide), if_pos rfl, hload32,
      exec_bind_ok, if_neg (by rw [sizeofServMsg, sizeofEventMsg]; omega),
      show sizeofEventMsg + data.length = 72 + data.length from rfl, hload, exec_bind_ok,
      load32_len hkey hlen, exec_bind_ok, keyList_eq hkey, hrun]
    rfl

end

end OpxCommonUtils.Event
