import OpxCommonUtils.Io.Transfer

/-!
# Complete transfers

Whatever way the kernel cuts a stream into pieces, a read delivers the next bytes of the stream
and a write that reports success has put all bytes on it, in order.
-/

namespace OpxCommonUtils.Io

/-- The script makes calls transfer something or interrupts them, at most `k` times before the
next transfer and `STD_MAX_EINTR` times between two. -/
def Benign : (k : Nat) → List Answer → Prop
  | _, [] => True
  | 0, .eintr :: _ => False
  | k + 1, .eintr :: as => Benign k as
  | _, .part _ :: as => Benign STD_MAX_EINTR as
  | _, _ => False

instance : ∀ (k : Nat) (as : List Answer), Decidable (Benign k as)
  | _, [] => inferInstanceAs (Decidable True)
  | 0, .eintr :: _ => inferInstanceAs (Decidable False)
  | k + 1, .eintr :: as => instDecidableBenign k as
  | 0, .part _ :: as => instDecidableBenign STD_MAX_EINTR as
  | _ + 1, .part _ :: as => instDecidableBenign STD_MAX_EINTR as
  | 0, .again _ :: _ => inferInstanceAs (Decidable False)
  | _ + 1, .again _ :: _ => inferInstanceAs (Decidable False)
  | 0, .fail :: _ => inferInstanceAs (Decidable False)
  | _ + 1, .fail :: _ => inferInstanceAs (Decidable False)

/-- A peer that answers so. -/
def Peer.Patient (p : Peer) : Prop := Benign STD_MAX_EINTR p.answers

/-- More retries do no harm. -/
theorem Benign.mono {as : List Answer} : ∀ {k k' : Nat}, k ≤ k' → Benign k as → Benign k' as := by
  induction as with
  | nil => intros; simp [Benign]
  | cons a as ih =>
    intro k k' hle h
    cases k with
    | zero =>
      cases a <;> simp only [Benign] at h
      cases k' <;> exact h
    | succ k =>
      obtain ⟨k', rfl⟩ : ∃ m, k' = m + 1 := ⟨k' - 1, by omega⟩
      cases a <;> simp only [Benign] at h ⊢
      · exact ih (by omega) h
      · exact h

/-! ## Reading -/

section Parts

variable {α : Type} {m n : Nat} (hle : m ≤ n) (xs : List α)

include hle

/-- What a transfer of `m` elements delivers, and what the rest of it does. -/
theorem take_append_rest :
    xs.take m ++ (xs.drop m).take (n - min m xs.length) = xs.take n := by
  rcases Nat.le_total m xs.length with hm | hm
  · rw [Nat.min_eq_left hm, ← List.take_add, Nat.add_sub_cancel' hle]
  · rw [List.drop_of_length_le hm, List.take_nil, List.append_nil, List.take_of_length_le hm,
      List.take_of_length_le (by omega)]

theorem drop_rest : (xs.drop m).drop (n - min m xs.length) = xs.drop n := by
  rw [List.drop_drop]
  rcases Nat.le_total m xs.length with hm | hm
  · rw [Nat.min_eq_left hm, Nat.add_sub_cancel' hle]
  · rw [List.drop_of_length_le (by omega), List.drop_of_length_le (by omega)]

end Parts

/-- The loop of a read that still wants `n` bytes delivers them, or what there is. -/
theorem fileOp_read_spec (n : Nat) : ∀ (fuel k total : Nat) (acc : List UInt8) (p : Peer),
    Benign k p.answers → n < 2 ^ 31 → p.answers.length + p.bytes.length < fuel →
    ∃ as, fileOp (fun _ count (w : List UInt8 × Peer) =>
          let (rc, bs, p) := w.2.read count
          (rc, w.1 ++ bs, p)) ((total + n : Nat) : Int) true fuel k total (acc, p) =
        .ok (((total + min n p.bytes.length : Nat) : Int), acc ++ p.bytes.take n,
          ⟨p.bytes.drop n, as⟩) ∧ (k ≤ STD_MAX_EINTR → Benign STD_MAX_EINTR as) := by
  intro fuel
  induction fuel generalizing n with
  | zero => intro k total acc p _ _ hf; omega
  | succ fuel ih =>
    rintro k total acc ⟨bytes, answers⟩ hb hn hf
    rw [fileOp]
    by_cases h0 : n = 0
    · subst h0
      refine ⟨answers, ?_, fun hk => hb.mono hk⟩
      rw [if_pos (by simp)]
      simp
    rw [if_neg (by omega)]
    have hcount : ((((total + n : Nat) : Int) - total) % 2 ^ 64).toNat = n := by omega
    rw [hcount]
    -- a transfer of `m` bytes leaves a shorter read to do
    have hgot : ∀ (m : Nat) (as : List Answer), 0 < m → m ≤ n → Benign STD_MAX_EINTR as →
        (bytes ≠ [] → as.length + (bytes.length - min m bytes.length) < fuel) →
        ∃ as', (if (bytes.take m).length = 0 then
              (.ok ((total : Int), acc ++ bytes.take m, (⟨bytes.drop m, as⟩ : Peer)) :
                Exec (Int × List UInt8 × Peer))
            else fileOp (fun _ count (w : List UInt8 × Peer) =>
                let (rc, bs, p) := w.2.read count
                (rc, w.1 ++ bs, p)) ((total + n : Nat) : Int) true fuel STD_MAX_EINTR
              (total + (bytes.take m).length) (acc ++ bytes.take m, ⟨bytes.drop m, as⟩)) =
            .ok (((total + min n bytes.length : Nat) : Int), acc ++ bytes.take n,
              ⟨bytes.drop n, as'⟩) ∧ Benign STD_MAX_EINTR as' := by
      intro m as hm hmn hbas hfuel
      by_cases hnil : bytes = []
      · subst hnil
        exact ⟨as, by simp, hbas⟩
      · have hlen : 0 < bytes.length := List.length_pos_iff.mpr hnil
        rw [if_neg (by rw [List.length_take]; omega), List.length_take]
        obtain ⟨as', hrun, hb'⟩ := ih (n - min m bytes.length) STD_MAX_EINTR
          (total + min m bytes.length) (acc ++ bytes.take m) ⟨bytes.drop m, as⟩ hbas (by omega) (by
            have := hfuel hnil
            simp only [List.length_drop]
            omega)
        have htarget : total + min m bytes.length + (n - min m bytes.length) = total + n := by omega
        rw [htarget] at hrun
        refine ⟨as', ?_, hb' le_rfl⟩
        rw [hrun, List.append_assoc, take_append_rest hmn, drop_rest hmn, List.length_drop]
        congr 3
        omega
    have hread : ∀ (m : Nat) (as : List Answer), 0 < m →
        min m (min n MAX_RW_COUNT) ≤ n ∧ 0 < min m (min n MAX_RW_COUNT) := by
      intro m as hm
      have hmax : 0 < MAX_RW_COUNT := by decide
      omega
    have hs : ¬ SSIZE_MAX < n := by
      have : SSIZE_MAX = 2 ^ 63 - 1 := rfl
      omega
    rw [Peer.read, if_neg hs]
    cases answers with
    | nil =>
      obtain ⟨hle, hpos⟩ := hread n [] (by omega)
      obtain ⟨as', hrun, hb'⟩ := hgot (min n (min n MAX_RW_COUNT)) [] hpos hle trivial (by
        intro hnil
        have := List.length_pos_iff.mpr hnil
        simp only [List.length_nil] at hf ⊢
        omega)
      exact ⟨as', hrun, fun _ => hb'⟩
    | cons a as =>
      simp only [List.length_cons] at hf
      cases a with
      | part m =>
        have hbas : Benign STD_MAX_EINTR as := by
          cases k <;> simpa [Benign] using hb
        obtain ⟨hle, hpos⟩ := hread (m + 1) as (by omega)
        obtain ⟨as', hrun, hb'⟩ := hgot (min (m + 1) (min n MAX_RW_COUNT)) as hpos hle hbas (by
          intro _
          omega)
        exact ⟨as', hrun, fun _ => hb'⟩
      | eintr =>
        cases k with
        | zero => exact absurd hb (by simp [Benign])
        | succ k =>
          obtain ⟨as', hrun, hb'⟩ := ih n k total acc ⟨bytes, as⟩ (by simpa [Benign] using hb) hn
            (by simp only; omega)
          refine ⟨as', ?_, fun hk => hb' (by omega)⟩
          simpa using hrun
      | again ready => cases k <;> exact absurd hb (by simp [Benign])
      | fail => cases k <;> exact absurd hb (by simp [Benign])

/-- A read delivers the next `n` bytes of the stream, or what is left of it. -/
theorem stdRead_spec {p : Peer} (hp : p.Patient) {n : Nat} (hn : n < 2 ^ 31) :
    ∃ p' : Peer, stdRead p n = .ok ((min n p.bytes.length : Nat), p.bytes.take n, p') ∧
      p'.bytes = p.bytes.drop n ∧ p'.Patient := by
  obtain ⟨as, hrun, hb⟩ := fileOp_read_spec n (p.answers.length + p.bytes.length + 1)
    STD_MAX_EINTR 0 [] p hp hn (Nat.lt_succ_self _)
  refine ⟨⟨p.bytes.drop n, as⟩, ?_, rfl, hb le_rfl⟩
  simpa [stdRead] using hrun

/-- A read of a negative length fails at once. -/
theorem stdRead_negative (p : Peer) (len : Int) (hneg : len < 0) (hlen : -(2 ^ 31) ≤ len) :
    stdRead p len = .ok (-1, [], p) := by
  have hcount : SSIZE_MAX < ((len - (0 : Nat)) % 2 ^ 64).toNat := by
    have : SSIZE_MAX = 2 ^ 63 - 1 := rfl
    omega
  rw [stdRead, fileOp, if_neg (by omega), Peer.read, if_pos hcount]
  rfl

/-- One call delivers no more than the count it is given, and tells how much. -/
theorem Peer.read_le {p q : Peer} {count : Nat} {rc : Rc} {bs : List UInt8}
    (hcall : p.read count = (rc, bs, q)) : bs.length ≤ count ∧
      match rc with
      | .done n => n = bs.length
      | _ => bs = [] := by
  unfold Peer.read at hcall
  dsimp only at hcall
  split at hcall
  · cases hcall
    exact ⟨Nat.zero_le _, rfl⟩
  · split at hcall <;> cases hcall
    · exact ⟨by rw [List.length_take]; omega, rfl⟩
    · exact ⟨Nat.zero_le _, rfl⟩
    · exact ⟨Nat.zero_le _, rfl⟩
    · exact ⟨Nat.zero_le _, rfl⟩
    · exact ⟨by rw [List.length_take]; omega, rfl⟩

/-- The loop of a read puts no more in the buffer than it was asked for. -/
theorem fileOp_read_le {len : Int} (hlen : 0 ≤ len) : ∀ (fuel retry total : Nat)
    (acc : List UInt8) (p : Peer) {rc : Int} {bs : List UInt8} {p' : Peer},
    total = acc.length → (total : Int) ≤ len →
    fileOp (fun _ count (w : List UInt8 × Peer) =>
        let (rc, bs, p) := w.2.read count
        (rc, w.1 ++ bs, p)) len true fuel retry total (acc, p) = .ok (rc, bs, p') →
    (bs.length : Int) ≤ len := by
  intro fuel
  induction fuel with
  | zero => intro retry total acc p rc bs p' _ _ hrun; cases hrun
  | succ fuel ih =>
    intro retry total acc p rc bs p' htotal hle hrun
    rw [fileOp] at hrun
    by_cases hdone : (total : Int) = len
    · rw [if_pos hdone] at hrun
      cases hrun
      omega
    rw [if_neg hdone] at hrun
    cases hcall : p.read ((len - total) % 2 ^ 64).toNat with
    | mk rc₁ rest =>
      obtain ⟨bs₁, q⟩ := rest
      obtain ⟨hshort, hcount⟩ := Peer.read_le hcall
      simp only [hcall] at hrun
      have hacc : ((acc ++ bs₁).length : Int) ≤ len := by
        rw [List.length_append]
        push_cast
        omega
      cases rc₁ with
      | eintr =>
        dsimp only at hrun
        split at hrun
        · cases hrun
          exact hacc
        · obtain rfl : bs₁ = [] := hcount
          rw [List.append_nil] at hrun
          exact ih _ _ _ _ htotal hle hrun
      | again ready =>
        cases hrun
        exact hacc
      | fail =>
        cases hrun
        exact hacc
      | done n =>
        obtain rfl : n = bs₁.length := hcount
        dsimp only at hrun
        split at hrun
        · cases hrun
          exact hacc
        · rw [List.length_append] at hacc
          exact ih _ _ _ _ (by rw [List.length_append, htotal]) (by rwa [htotal]) hrun

/-- A read puts no more in the buffer than it was asked for, and nothing for a negative length. -/
theorem stdRead_le {p : Peer} {len : Int} (hlen : -(2 ^ 31) ≤ len) {rc : Int} {bs : List UInt8}
    {p' : Peer} (hrun : stdRead p len = .ok (rc, bs, p')) : bs.length ≤ len.toNat := by
  rcases Int.lt_or_le len 0 with hneg | hpos
  · rw [stdRead_negative p len hneg hlen] at hrun
    cases hrun
    simp
  · have := fileOp_read_le hpos _ _ 0 [] p rfl hpos hrun
    omega

/-! ## Writing -/

theorem flatten_fixOffset {α : Type} (n : Nat) (iov : List (List α)) :
    (fixOffset n iov).flatten = iov.flatten.drop n := by
  induction iov generalizing n with
  | nil => simp [fixOffset]
  | cons b iov ih =>
    rw [fixOffset]
    by_cases h0 : n = 0
    · simp [h0]
    rw [if_neg h0]
    by_cases hlt : n < b.length
    · rw [if_pos hlt, List.flatten_cons, List.flatten_cons, List.drop_append_of_le_length hlt.le]
    · have hnil : b.drop n = [] := List.drop_of_length_le (by omega)
      rw [if_neg hlt, ih, List.flatten_cons, List.drop_append, hnil, List.nil_append]

theorem totalLen_eq {α : Type} {iov : List (List α)} (h : iov.flatten.length < 2 ^ 64) :
    totalLen iov = iov.flatten.length := by
  rw [List.length_flatten] at h ⊢
  exact Nat.mod_eq_of_lt h

/-- The script lets a write go on: no call fails and every wait ends in time. -/
def Steady (as : List Answer) : Prop := ∀ a ∈ as, a ≠ .fail ∧ a ≠ .again false

theorem Steady.tail {a : Answer} {as : List Answer} (h : Steady (a :: as)) : Steady as :=
  fun b hb => h b (by simp [hb])

/-- The loop of a write ends. Where it reports no error the bytes from `total` on are written, and
it reports none when the kernel lets it go on. -/
theorem processOp_write_spec {iov : List (List UInt8)} (hlen : iov.flatten.length < 2 ^ 64) :
    ∀ (fuel total : Nat) (p : Peer), total ≤ iov.flatten.length →
      p.answers.length + (iov.flatten.length - total) < fuel →
      ∃ r err p', processOp Peer.sendmsg true iov fuel total p = .ok (r, err, p') ∧
        (err = false → p'.bytes = p.bytes ++ iov.flatten.drop total) ∧
        (Steady p.answers → err = false) := by
  intro fuel
  induction fuel with
  | zero => intro total p _ hf; omega
  | succ fuel ih =>
    rintro total ⟨bytes, answers⟩ htot hf
    rw [processOp, totalLen_eq hlen]
    by_cases hdone : total = iov.flatten.length
    · rw [if_pos hdone]
      exact ⟨_, _, _, rfl, fun _ => by simp [hdone], fun _ => rfl⟩
    rw [if_neg hdone]
    have hrest : (fixOffset total iov).flatten.length = iov.flatten.length - total := by
      rw [flatten_fixOffset, List.length_drop]
    have hgot : ∀ (m : Nat) (as : List Answer), 0 < m →
        as.length + (iov.flatten.length - total) ≤ fuel →
        ∃ r err p', (match ((.done ((fixOffset total iov).flatten.take m).length,
              ⟨bytes ++ (fixOffset total iov).flatten.take m, as⟩) : Rc × Peer) with
            | (.eintr, w) => processOp Peer.sendmsg true iov fuel total w
            | (.again ready, w) =>
              if ready then processOp Peer.sendmsg true iov fuel total w else .ok (-1, true, w)
            | (.fail, w) => .ok (-1, true, w)
            | (.done n, w) =>
              if n = 0 then
                if true then .ok (0, true, w) else .ok (total, false, w)
              else if true then processOp Peer.sendmsg true iov fuel (total + n) w
              else .ok (total + n, false, w)) = .ok (r, err, p') ∧
          (err = false → p'.bytes = bytes ++ iov.flatten.drop total) ∧
          (Steady as → err = false) := by
      intro m as hm hfuel
      have hpos : ((fixOffset total iov).flatten.take m).length ≠ 0 := by
        rw [List.length_take, hrest]
        omega
      simp only [if_neg hpos, if_true]
      rw [List.length_take, hrest]
      obtain ⟨r, err, p', hrun, hbytes, hok⟩ := ih (total + min m (iov.flatten.length - total))
        ⟨bytes ++ (fixOffset total iov).flatten.take m, as⟩ (by omega) (by
          simp only
          omega)
      refine ⟨r, err, p', hrun, fun herr => ?_, hok⟩
      have hsplit : (iov.flatten.drop total).take m ++
          iov.flatten.drop (total + min m (iov.flatten.length - total)) =
          iov.flatten.drop total := by
        rw [← List.drop_drop]
        rcases Nat.le_total m (iov.flatten.length - total) with hle | hge
        · rw [Nat.min_eq_left hle, List.take_append_drop]
        · have hnil : (iov.flatten.drop total).drop (iov.flatten.length - total) = [] :=
            List.drop_of_length_le (by rw [List.length_drop])
          rw [Nat.min_eq_right hge, hnil, List.append_nil,
            List.take_of_length_le (by rw [List.length_drop]; exact hge)]
      rw [hbytes herr, List.append_assoc, flatten_fixOffset, hsplit]
    have hmax : 0 < MAX_RW_COUNT := by decide
    rw [Peer.sendmsg]
    cases answers with
    | nil =>
      refine hgot (min (fixOffset total iov).flatten.length MAX_RW_COUNT) [] ?_ ?_
      · rw [hrest]
        omega
      · simp only [List.length_nil] at hf ⊢
        omega
    | cons a as =>
      simp only [List.length_cons] at hf
      cases a with
      | part m =>
        obtain ⟨r, err, p', hrun, hbytes, hok⟩ :=
          hgot (min (m + 1) MAX_RW_COUNT) as (by omega) (by omega)
        exact ⟨r, err, p', hrun, hbytes, fun h => hok h.tail⟩
      | eintr =>
        obtain ⟨r, err, p', hrun, hbytes, hok⟩ := ih total ⟨bytes, as⟩ htot (by simp only; omega)
        exact ⟨r, err, p', hrun, hbytes, fun h => hok h.tail⟩
      | again ready =>
        cases ready with
        | false => exact ⟨_, _, _, rfl, nofun, fun h => absurd rfl (h _ (by simp)).2⟩
        | true =>
          obtain ⟨r, err, p', hrun, hbytes, hok⟩ := ih total ⟨bytes, as⟩ htot (by simp only; omega)
          exact ⟨r, err, p', hrun, hbytes, fun h => hok h.tail⟩
      | fail => exact ⟨_, _, _, rfl, nofun, fun h => absurd rfl (h _ (by simp)).1⟩

/-- A write ends, and one that reports no error has put all buffers on the stream. -/
theorem stdSocketWrite_spec (iov : List (List UInt8)) (hlen : iov.flatten.length < 2 ^ 64)
    (p : Peer) : ∃ err p', stdSocketWrite p iov = .ok (err, p') ∧
      (err = false → p'.bytes = p.bytes ++ iov.flatten) ∧ (Steady p.answers → err = false) := by
  obtain ⟨r, err, p', hrun, hbytes, hok⟩ := processOp_write_spec hlen
    (p.answers.length + iov.flatten.length + 1) 0 p (Nat.zero_le _) (by omega)
  refine ⟨err, p', ?_, by simpa using hbytes, hok⟩
  rw [stdSocketWrite, hrun]
  rfl

end OpxCommonUtils.Io
