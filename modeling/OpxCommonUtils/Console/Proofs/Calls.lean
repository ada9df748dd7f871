import OpxCommonUtils.Bits.Proofs.Array
import OpxCommonUtils.Console.Redir
import OpxCommonUtils.Io.Proofs.Transfer

/-!
# What the calls of the console proxy do

One lemma for each repeated system call, for `copy_to_fd`, and for the string that is in the buffer.
-/

namespace OpxCommonUtils.Console

open Io

/-- What one call of `read` does. -/
structure ReadSome (p : Peer) (count : Nat) (rc : Rc) (bs : List UInt8) (q : Peer) : Prop where
  bytes : p.bytes = bs ++ q.bytes
  le : bs.length ≤ count
  done : ∀ n, rc = .done n → n = bs.length
  rest : (∀ n, rc ≠ .done n) → bs = []
  eintr : rc = .eintr → q.answers.length < p.answers.length

theorem read_spec {p : Peer} {count : Nat} {rc : Rc} {bs : List UInt8} {q : Peer}
    (hcall : p.read count = (rc, bs, q)) : ReadSome p count rc bs q := by
  obtain ⟨hle, hrc⟩ := Peer.read_le hcall
  unfold Peer.read at hcall
  dsimp only at hcall
  split at hcall
  · cases hcall
    exact ⟨rfl, hle, by simp, fun _ => rfl, by simp⟩
  · split at hcall <;> rename_i hanswers <;> cases hcall
    · exact ⟨(List.take_append_drop _ _).symm, hle, by simp, by simp, by simp⟩
    · exact ⟨rfl, hle, by simp, fun _ => rfl, by simp [hanswers]⟩
    · exact ⟨rfl, hle, by simp, fun _ => rfl, by simp⟩
    · exact ⟨rfl, hle, by simp, fun _ => rfl, by simp⟩
    · exact ⟨(List.take_append_drop _ _).symm, hle, by simp, by simp, by simp⟩

/-- The loop of a read that takes what is there, when nothing has been read yet. -/
theorem fileOp_readOper {count : Nat} (hpos : 0 < count) (hcount : count < 2 ^ 31) :
    ∀ (fuel retry : Nat) (p : Peer), p.answers.length < fuel →
      ∃ rc bs q, fileOp readOper count false fuel retry 0 ([], p) = .ok (rc, bs, q) ∧
        p.bytes = bs ++ q.bytes ∧ bs.length ≤ count ∧ (rc = bs.length ∨ rc = -1 ∧ bs = []) := by
  have hask : (((count : Int) - (0 : Nat)) % 2 ^ 64).toNat = count := by omega
  intro fuel
  induction fuel with
  | zero => intro retry p h; omega
  | succ fuel ih =>
    intro retry p hfuel
    rw [fileOp, if_neg (by omega), hask]
    cases hcall : p.read count with
    | mk rc rest =>
      obtain ⟨bs, q⟩ := rest
      have hread := read_spec hcall
      simp only [readOper, hcall, List.nil_append]
      cases rc with
      | eintr =>
        obtain rfl := hread.rest (by simp)
        dsimp only
        split_ifs
        · exact ⟨-1, [], q, rfl, hread.bytes, by simp, .inr ⟨rfl, rfl⟩⟩
        · obtain ⟨rc, bs, q', hrun, hbytes, hle, hrc⟩ :=
            ih (retry - 1) q (by have := hread.eintr rfl; omega)
          exact ⟨rc, bs, q', hrun, by rw [hread.bytes, List.nil_append, hbytes], hle, hrc⟩
      | again ready =>
        exact ⟨-1, bs, q, rfl, hread.bytes, hread.le, .inr ⟨rfl, hread.rest (by simp)⟩⟩
      | fail => exact ⟨-1, bs, q, rfl, hread.bytes, hread.le, .inr ⟨rfl, hread.rest (by simp)⟩⟩
      | done n =>
        obtain rfl := hread.done n rfl
        dsimp only
        by_cases hzero : bs.length = 0
        · rw [if_pos hzero]
          exact ⟨0, bs, q, rfl, hread.bytes, hread.le, .inl (by simp [hzero])⟩
        · rw [if_neg hzero, if_neg (by simp)]
          exact ⟨_, bs, q, rfl, hread.bytes, hread.le, .inl (by simp)⟩

/-- A read that takes what is there: a first part of the bytes, or nothing. -/
theorem stdReadSome_spec (p : Peer) {count : Nat} (hpos : 0 < count) (hcount : count < 2 ^ 31) :
    ∃ rc bs q, stdReadSome p count = .ok (rc, bs, q) ∧ p.bytes = bs ++ q.bytes ∧
      bs.length ≤ count ∧ (rc = bs.length ∨ rc = -1 ∧ bs = []) :=
  fileOp_readOper hpos hcount _ _ p (by omega)

/-- What one call of `write` does. -/
structure WriteSome (p : Peer) (bs : List UInt8) (rc : Rc) (n : Nat) (q : Peer) : Prop where
  bytes : q.bytes = p.bytes ++ bs.take n
  le : n ≤ bs.length
  done : ∀ m, rc = .done m → m = n
  rest : (∀ m, rc ≠ .done m) → n = 0
  pos : bs ≠ [] → ∀ m, rc = .done m → 0 < m
  answers : q.answers.length ≤ p.answers.length
  eintr : rc = .eintr → q.answers.length < p.answers.length

theorem sendmsg_spec {p : Peer} {bs : List UInt8} {rc : Rc} {q : Peer}
    (hcall : p.sendmsg [bs] = (rc, q)) : ∃ n, WriteSome p bs rc n q := by
  have hone : [bs].flatten = bs := by simp
  have hmax : 0 < MAX_RW_COUNT := by decide
  have hpos : bs ≠ [] → 0 < bs.length := List.length_pos_of_ne_nil
  unfold Peer.sendmsg at hcall
  rw [hone] at hcall
  dsimp only at hcall
  split at hcall <;> rename_i hanswers <;> cases hcall
  · refine ⟨min bs.length MAX_RW_COUNT, rfl, Nat.min_le_left _ _, ?_, by simp, ?_, by simp, by simp⟩
    · simp
    · rintro hne _ ⟨⟩
      have := hpos hne
      rw [List.length_take]
      omega
  · exact ⟨0, by simp, Nat.zero_le _, by simp, fun _ => rfl, by simp, by simp [hanswers],
      by simp [hanswers]⟩
  · exact ⟨0, by simp, Nat.zero_le _, by simp, fun _ => rfl, by simp, by simp [hanswers], by simp⟩
  · exact ⟨0, by simp, Nat.zero_le _, by simp, fun _ => rfl, by simp, by simp [hanswers], by simp⟩
  · rename_i k as
    refine ⟨min (min (k + 1) MAX_RW_COUNT) bs.length, ?_, Nat.min_le_right _ _, ?_, by simp, ?_,
      by simp [hanswers], by simp⟩
    · dsimp only
      rw [← List.take_eq_take_min]
    · simp
    · rintro hne _ ⟨⟩
      have := hpos hne
      rw [List.length_take]
      omega

/-- The loop of a write when `total` bytes have been written, after which `p` is the peer. -/
theorem fileOp_sendmsg {b : List UInt8} {len : Nat} (hb : len ≤ b.length) (hlen : len < 2 ^ 31) :
    ∀ (fuel retry total : Nat) (p : Peer), total ≤ len → p.answers.length + (len - total) < fuel →
      ∃ rc n q, fileOp (fun total count (p : Peer) => p.sendmsg [(b.drop total).take count]) len
          true fuel retry total p = .ok (rc, q) ∧ total ≤ n ∧ n ≤ len ∧
        q.bytes = p.bytes ++ (b.drop total).take (n - total) ∧ (rc = -1 ∨ rc = len ∧ n = len) := by
  intro fuel
  induction fuel with
  | zero => intro retry total p _ h; omega
  | succ fuel ih =>
    intro retry total p hle hfuel
    rw [fileOp]
    by_cases hdone : total = len
    · subst hdone
      rw [if_pos rfl]
      exact ⟨total, total, p, rfl, Nat.le_refl _, Nat.le_refl _, by simp, .inr ⟨rfl, rfl⟩⟩
    · rw [if_neg (by omega)]
      have hask : (((len : Int) - (total : Nat)) % 2 ^ 64).toNat = len - total := by omega
      rw [hask]
      have hbytes : ((b.drop total).take (len - total)).length = len - total := by
        rw [List.length_take, List.length_drop]
        omega
      cases hcall : p.sendmsg [(b.drop total).take (len - total)] with
      | mk rc q =>
        obtain ⟨n, hwrite⟩ := sendmsg_spec hcall
        have hn := hwrite.le
        rw [hbytes] at hn
        have hq := hwrite.bytes
        rw [List.take_take, Nat.min_eq_left hn] at hq
        have hstop : ∃ rc n q', (Except.ok ((-1 : Int), q) : Exec _) = .ok (rc, q') ∧ total ≤ n ∧
            n ≤ len ∧ q'.bytes = p.bytes ++ (b.drop total).take (n - total) ∧
            (rc = -1 ∨ rc = len ∧ n = len) :=
          ⟨-1, total + n, q, rfl, by omega, by omega, by rw [hq, Nat.add_sub_cancel_left],
            .inl rfl⟩
        cases rc with
        | eintr =>
          dsimp only
          split_ifs
          · exact hstop
          · obtain rfl := hwrite.rest (by simp)
            rw [List.take_zero, List.append_nil] at hq
            obtain ⟨rc, m, q', hrun, h₁, h₂, h₃, h₄⟩ :=
              ih (retry - 1) total q hle (by have := hwrite.eintr rfl; omega)
            exact ⟨rc, m, q', hrun, h₁, h₂, by rw [h₃, hq], h₄⟩
        | again ready => exact hstop
        | fail => exact hstop
        | done m =>
          obtain rfl := hwrite.done m rfl
          have hne : (b.drop total).take (len - total) ≠ [] := by
            intro hnil
            rw [hnil] at hbytes
            simp at hbytes
            omega
          have hpos := hwrite.pos hne m rfl
          dsimp only
          rw [if_neg (by omega), if_pos rfl]
          obtain ⟨rc, k, q', hrun, h₁, h₂, h₃, h₄⟩ := ih STD_MAX_EINTR (total + m) q (by omega)
            (by have := hwrite.answers; omega)
          refine ⟨rc, k, q', hrun, by omega, h₂, ?_, h₄⟩
          rw [h₃, hq, List.append_assoc, ← List.drop_drop,
            show k - total = m + (k - (total + m)) by omega, List.take_add]

/-- A write of the first `len` bytes of a buffer: all of them, or a first part and `-1`. -/
theorem stdWrite_spec (p : Peer) {b : List UInt8} {len : Nat} (hb : len ≤ b.length)
    (hlen : len < 2 ^ 31) :
    ∃ rc n q, stdWrite p b len = .ok (rc, q) ∧ n ≤ len ∧ q.bytes = p.bytes ++ b.take n ∧
      (rc = -1 ∨ rc = len ∧ n = len) := by
  obtain ⟨rc, n, q, hrun, -, hn, hbytes, hrc⟩ := fileOp_sendmsg hb hlen _ STD_MAX_EINTR 0 p
    (Nat.zero_le _) (show p.answers.length + (len - 0) < p.answers.length + len + 1 by omega)
  exact ⟨rc, n, q, hrun, hn, by simpa using hbytes, hrc⟩

/-! ## The buffer -/

/-- The buffer begins with the bytes that were read last, and a NUL. -/
def Holds (last b : List UInt8) : Prop := b.length = DEF_BUF_LEN ∧ ∃ tail, b = last ++ 0 :: tail

theorem holds_init : Holds [] Proxy.init.mBuff := by
  refine ⟨List.length_replicate, List.replicate (DEF_BUF_LEN - 1) 0, ?_⟩
  exact List.replicate_succ

theorem takeWhile_append_zero (bs tail : List UInt8) :
    (bs ++ 0 :: tail).takeWhile (· ≠ 0) = bs.takeWhile (· ≠ 0) := by
  induction bs with
  | nil => simp
  | cons b bs ih =>
    by_cases hb : b = 0
    · simp [hb]
    · simp only [List.cons_append, List.takeWhile_cons, hb, ne_eq, not_false_eq_true, decide_true,
        ↓reduceIte]
      rw [ih]

/-- The string in the buffer is what was read last, up to its first NUL. -/
theorem Holds.strlen {last b : List UInt8} (h : Holds last b) :
    ∃ n, strlen b = .ok n ∧ n < DEF_BUF_LEN ∧ b.take n = last.takeWhile (· ≠ 0) := by
  obtain ⟨hlen, tail, rfl⟩ := h
  have hcut := takeWhile_append_zero last tail
  have hle : (last.takeWhile (· ≠ 0)).length ≤ last.length :=
    (List.takeWhile_prefix _).length_le
  rw [List.length_append, List.length_cons] at hlen
  refine ⟨(last.takeWhile (· ≠ 0)).length, ?_, by omega, ?_⟩
  · unfold Console.strlen
    rw [hcut]
    dsimp only
    rw [if_pos (by rw [List.length_append, List.length_cons]; omega)]
  · rw [← hcut]
    exact (List.prefix_iff_eq_take.mp (List.takeWhile_prefix _)).symm

/-- A chunk that leaves room for the NUL. -/
theorem Holds.store {last b : List UInt8} (h : Holds last b) {bs : List UInt8}
    (hbs : bs.length < DEF_BUF_LEN) :
    ∃ b₁ b₂, store b bs = .ok b₁ ∧ Bits.changeAt b₁ bs.length (fun _ => 0) = .ok b₂ ∧
      Holds bs b₂ ∧ b₂.take bs.length = bs := by
  obtain ⟨hlen, -⟩ := h
  have hlen₁ : (bs ++ b.drop bs.length).length = DEF_BUF_LEN := by
    rw [List.length_append, List.length_drop]
    omega
  obtain ⟨c, tail, hdrop⟩ : ∃ c tail, b.drop bs.length = c :: tail := by
    apply List.exists_cons_of_length_pos
    rw [List.length_drop]
    omega
  refine ⟨bs ++ b.drop bs.length, bs ++ 0 :: tail, ?_, ?_, ⟨?_, tail, rfl⟩, by simp⟩
  · unfold Console.store
    rw [if_pos (by omega)]
  · rw [Bits.changeAt_of_lt (by omega), hdrop]
    simp
  · rw [hdrop] at hlen₁
    simpa using hlen₁

theorem store_nothing (b : List UInt8) : Console.store b [] = .ok b := by
  unfold Console.store
  simp

/-! ## Descriptors -/

section Descriptors

variable {d : Proxy} {fd fd' : Fd} {r s : Sock}

@[simp] theorem sock_mBuff (b : List UInt8) : ({ d with mBuff := b }).sock fd = d.sock fd := by
  cases fd <;> rfl

theorem sock_setSock_ne (h : fd' ≠ fd) : (d.setSock s fd).sock fd' = d.sock fd' := by
  cases fd with
  | console =>
    cases fd' with
    | console => exact absurd rfl h
    | client c => rfl
  | client c =>
    cases fd' with
    | console => rfl
    | client c' =>
      have hne : c ≠ c' := fun heq => h (by rw [heq])
      simp [Proxy.setSock, Proxy.sock, List.getElem?_set_ne hne]

theorem isOpen_of_sock (h : d.sock fd = .ok r) : r.isOpen = true := by
  cases fd with
  | console =>
    simp only [Proxy.sock] at h
    split at h
    · cases h
      assumption
    · cases h
  | client c =>
    simp only [Proxy.sock] at h
    split at h
    · split at h
      · cases h
        assumption
      · cases h
    · cases h

theorem close_of_sock (h : d.sock fd = .ok r) :
    d.close fd = .ok (d.setSock { r with isOpen := false } fd) := by
  unfold Proxy.close
  rw [h]
  rfl

end Descriptors

/-! ## Copying -/

section Copy

variable {d : Proxy} {rsock w : Fd} {r s : Sock} {last : List UInt8}

/-- A chunk that is read goes into the buffer, in front of a NUL. -/
theorem copyToFd_read (hr : d.sock rsock = .ok r) (hlast : Holds last d.mBuff) (wsock : Option Fd) :
    (∃ reader, reader.bytes = r.reader.bytes ∧
      copyToFd rsock wsock d = .ok (false, d.setSock { r with reader } rsock)) ∨
    ∃ bs reader b, bs ≠ [] ∧ r.reader.bytes = bs ++ reader.bytes ∧ Holds bs b ∧
      b.take bs.length = bs ∧ copyToFd rsock wsock d =
        match wsock with
        | none => .ok (true, { d.setSock { r with reader } rsock with mBuff := b })
        | some w =>
          writeBuff w bs.length { d.setSock { r with reader } rsock with mBuff := b } := by
  have hlen := hlast.1
  obtain ⟨rc, bs, reader, hread, hbytes, hle, hrc⟩ :=
    stdReadSome_spec r.reader (show 0 < DEF_BUF_LEN - 1 by decide) (by decide)
  have hask : (d.mBuff.length : Int) - 1 = (DEF_BUF_LEN - 1 : Nat) := by
    rw [hlen]
    rfl
  unfold copyToFd
  rw [hr, exec_bind_ok, hask, hread, exec_bind_ok]
  by_cases hnil : bs = []
  · subst hnil
    left
    have hrc : ¬ 0 < rc := by
      rcases hrc with h | ⟨h, -⟩
      · simp [h]
      · omega
    refine ⟨reader, hbytes.symm, ?_⟩
    dsimp only
    rw [store_nothing, exec_bind_ok]
    rw [if_neg hrc]
    cases rsock <;> rfl
  · right
    obtain rfl : rc = bs.length := hrc.resolve_right fun h => hnil h.2
    obtain ⟨b₁, b, hstore, hchange, hholds, htake⟩ :=
      hlast.store (show bs.length < DEF_BUF_LEN by unfold DEF_BUF_LEN at *; omega)
    have hpos : (0 : Int) < bs.length := by exact_mod_cast List.length_pos_of_ne_nil hnil
    refine ⟨bs, reader, b, hnil, hbytes, hholds, htake, ?_⟩
    dsimp only
    rw [hstore, exec_bind_ok]
    rw [if_pos hpos, Int.toNat_natCast, hchange, exec_bind_ok]
    cases wsock <;> rfl

/-- `copy_to_fd` between two sockets: nothing is read and it fails, or a chunk is read, of which a
first part is written, all of it when it succeeds. -/
theorem copyToFd_spec (hr : d.sock rsock = .ok r) (hw : d.sock w = .ok s) (hne : w ≠ rsock)
    (hlast : Holds last d.mBuff) :
    (∃ reader, reader.bytes = r.reader.bytes ∧
      copyToFd rsock (some w) d = .ok (false, d.setSock { r with reader } rsock)) ∨
    ∃ bs n reader writer b, r.reader.bytes = bs ++ reader.bytes ∧ n ≤ bs.length ∧
      writer.bytes = s.writer.bytes ++ bs.take n ∧ Holds bs b ∧
      copyToFd rsock (some w) d = .ok (decide (n = bs.length),
        ({ d.setSock { r with reader } rsock with mBuff := b }).setSock { s with writer } w) := by
  rcases copyToFd_read hr hlast (some w) with h | ⟨bs, reader, b, hnil, hbytes, hholds, htake, hrun⟩
  · exact .inl h
  · right
    cases hcall : s.writer.sendmsg [bs] with
    | mk rc writer =>
      obtain ⟨n, hwrite⟩ := sendmsg_spec hcall
      refine ⟨bs, n, reader, writer, b, hbytes, hwrite.le, hwrite.bytes, hholds, ?_⟩
      have hok : decide (rc = .done bs.length) = decide (n = bs.length) := by
        rw [decide_eq_decide]
        cases rc with
        | done m =>
          obtain rfl := hwrite.done m rfl
          simp
        | _ =>
          have hzero := hwrite.rest (by simp)
          have hpos := List.length_pos_of_ne_nil hnil
          simp only [reduceCtorEq, false_iff]
          omega
      rw [hrun]
      dsimp only
      rw [writeBuff, sock_mBuff, sock_setSock_ne hne, hw, exec_bind_ok, htake, hcall]
      dsimp only
      rw [hok]
      rfl

end Copy

end OpxCommonUtils.Console
