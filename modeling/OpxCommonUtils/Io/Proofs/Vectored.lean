import OpxCommonUtils.Io.Proofs.Transfer

/-!
# Vectored transfers

A `Kernel` follows a script and records what it is offered at each call and what it transfers. After
`total` bytes it has seen, at every call, what was left of the concatenated buffers then
(`Kernel.At`). Each loop keeps that: the one of `_std_op_set`, which changes its array of buffers,
the one of `_process_op`, which starts from the whole array again, and the one of `file_op` on the
concatenation.
-/

namespace OpxCommonUtils.Io

variable {α : Type}

/-- What happens to calls that transfer buffers: the script of the answers to come, the calls so far
with the number of bytes transferred before each and the bytes it was offered, and the bytes
transferred. -/
structure Kernel (α : Type) where
  answers : List Answer
  calls : List (Nat × List α)
  moved : List α
  deriving DecidableEq

/-- A system call that is offered `iov`. -/
def Kernel.transfer (iov : List (List α)) (k : Kernel α) : Rc × Kernel α :=
  let calls := k.calls ++ [(k.moved.length, iov.flatten)]
  let move (n : Nat) (as : List Answer) : Rc × Kernel α :=
    let bs := iov.flatten.take n
    (.done bs.length, ⟨as, calls, k.moved ++ bs⟩)
  match k.answers with
  | [] => move iov.flatten.length []
  | .eintr :: as => (.eintr, ⟨as, calls, k.moved⟩)
  | .again ready :: as => (.again ready, ⟨as, calls, k.moved⟩)
  | .fail :: as => (.fail, ⟨as, calls, k.moved⟩)
  | .part n :: as => move (n + 1) as

/-- Exactly the first `total` bytes of `all` were transferred, and every call was offered what was
left then. -/
structure Kernel.At (all : List α) (total : Nat) (k : Kernel α) : Prop where
  moved : k.moved = all.take total
  calls : ∀ c ∈ k.calls, c.2 = all.drop c.1

namespace Kernel.At

variable {all : List α} {total : Nat} {k : Kernel α} {iov : List (List α)}

theorem init (all : List α) (as : List Answer) : Kernel.At all 0 ⟨as, [], []⟩ :=
  ⟨rfl, by simp⟩

theorem call (h : k.At all total) (hiov : iov.flatten = all.drop total) (hle : total ≤ all.length) :
    ∀ c ∈ k.calls ++ [(k.moved.length, iov.flatten)], c.2 = all.drop c.1 := by
  intro c hc
  rcases List.mem_append.mp hc with hc | hc
  · exact h.calls c hc
  · obtain rfl := List.mem_singleton.mp hc
    rw [hiov, h.moved, List.length_take, Nat.min_eq_left hle]

/-- A transfer of some of the bytes offered. -/
theorem move (h : k.At all total) (hiov : iov.flatten = all.drop total)
    (hlt : total < all.length) {n : Nat} (hn : 0 < n) (as : List Answer) :
    ∃ m, 0 < m ∧ total + m ≤ all.length ∧ (iov.flatten.take n).length = m ∧
      Kernel.At all (total + m) ⟨as, k.calls ++ [(k.moved.length, iov.flatten)],
        k.moved ++ iov.flatten.take n⟩ := by
  have hlen : (iov.flatten.take n).length = min n (all.length - total) := by
    rw [List.length_take, hiov, List.length_drop]
  have hcut : (all.drop total).take n = (all.drop total).take (min n (all.length - total)) := by
    rw [← List.length_drop]
    exact List.take_eq_take_min
  have hmoved : k.moved ++ iov.flatten.take n = all.take (total + min n (all.length - total)) := by
    rw [h.moved, hiov, hcut, List.take_add]
  exact ⟨min n (all.length - total), by omega, by omega, hlen, hmoved, h.call hiov hlt.le⟩

/-- The answer to a call is a transfer, or the first of the script. -/
theorem transfer (h : k.At all total) (hiov : iov.flatten = all.drop total)
    (hlt : total < all.length) :
    (∃ m k', Kernel.transfer iov k = (.done m, k') ∧ 0 < m ∧ total + m ≤ all.length ∧
      k'.At all (total + m) ∧
      (k.answers = [] ∧ k'.answers = [] ∨ ∃ n, k.answers = .part n :: k'.answers)) ∨
    (∃ k', Kernel.transfer iov k = (.eintr, k') ∧ k'.At all total ∧
      k.answers = .eintr :: k'.answers) ∨
    (∃ ready k', Kernel.transfer iov k = (.again ready, k') ∧ k'.At all total ∧
      k.answers = .again ready :: k'.answers) ∨
    .fail ∈ k.answers := by
  obtain ⟨answers, calls, moved⟩ := k
  have hcall := h.call hiov hlt.le
  cases answers with
  | nil =>
    have hpos : 0 < iov.flatten.length := by
      rw [hiov, List.length_drop]
      omega
    obtain ⟨m, hm, hle, hlen, hat⟩ := h.move hiov hlt hpos []
    refine .inl ⟨m, _, ?_, hm, hle, hat, .inl ⟨rfl, rfl⟩⟩
    rw [Kernel.transfer]
    simp only [hlen]
  | cons a as =>
    cases a with
    | eintr => exact .inr (.inl ⟨_, rfl, ⟨h.moved, hcall⟩, rfl⟩)
    | again ready => exact .inr (.inr (.inl ⟨ready, _, rfl, ⟨h.moved, hcall⟩, rfl⟩))
    | fail => exact .inr (.inr (.inr (by simp)))
    | part n =>
      obtain ⟨m, hm, hle, hlen, hat⟩ := h.move hiov hlt (Nat.succ_pos n) as
      refine .inl ⟨m, _, ?_, hm, hle, hat, .inr ⟨n, rfl⟩⟩
      rw [Kernel.transfer]
      simp only [hlen]

end Kernel.At

/-! ## The array of `_std_op_set` -/

theorem flatten_stepSet {piov : List (List α)} : ∀ {rc : Nat}, rc ≤ piov.flatten.length →
    (stepSet rc piov).flatten = piov.flatten.drop rc := by
  induction piov with
  | nil => simp [stepSet]
  | cons b rest ih =>
    intro rc hrc
    rw [List.flatten_cons, List.length_append] at hrc
    rw [stepSet, List.flatten_cons]
    by_cases h0 : rc = 0
    · simp [h0]
    rw [if_neg h0]
    by_cases hlt : b.length < rc
    · have hnil : b.drop rc = [] := List.drop_of_length_le hlt.le
      rw [if_pos hlt, ih (by omega), List.drop_append, hnil, List.nil_append]
    · rw [if_neg hlt, List.flatten_cons, List.drop_append_of_le_length (not_lt.mp hlt)]

theorem flatten_filter_length (data : List (List α)) :
    (data.filter fun b => b.length ≠ 0).flatten = data.flatten := by
  induction data with
  | nil => rfl
  | cons b data ih =>
    by_cases hb : b = []
    · subst hb
      simpa using ih
    · rw [List.filter_cons_of_pos (by simpa using hb), List.flatten_cons, List.flatten_cons, ih]

/-! ## The loops -/

variable {all : List α}

theorem Benign.of_part {k n : Nat} {as : List Answer} (h : Benign k (.part n :: as)) :
    Benign STD_MAX_EINTR as := by
  cases k <;> simpa [Benign] using h

theorem Benign.not_again {k : Nat} {ready : Bool} {as : List Answer} :
    ¬ Benign k (.again ready :: as) := by
  cases k <;> simp [Benign]

theorem Benign.not_fail {as : List Answer} : ∀ {k : Nat}, Benign k as → .fail ∉ as := by
  induction as with
  | nil => simp
  | cons a as ih =>
    intro k h
    have hcons : a ≠ .fail ∧ ∃ k', Benign k' as := by
      cases k with
      | zero =>
        cases a with
        | part n => exact ⟨by simp, _, h.of_part⟩
        | _ => simp [Benign] at h
      | succ k =>
        cases a with
        | part n => exact ⟨by simp, _, h.of_part⟩
        | eintr => exact ⟨by simp, k, h⟩
        | _ => simp [Benign] at h
    obtain ⟨hne, k', hk'⟩ := hcons
    simp [Ne.symm hne, ih hk']

/-- The loop of `_std_op_set` transfers what is left. -/
theorem stdOpSetLoop_spec : ∀ (fuel retry total : Nat) (piov : List (List α)) (k : Kernel α),
    k.At all total → piov.flatten = all.drop total → total < all.length → Benign retry k.answers →
    k.answers.length + (all.length - total) ≤ fuel → ∃ k',
      stdOpSetLoop Kernel.transfer true all.length fuel retry total piov k =
        .ok (all.length, false, k') ∧ k'.At all all.length := by
  intro fuel
  induction fuel with
  | zero => intro retry total piov k _ _ hlt _ hfuel; omega
  | succ fuel ih =>
    intro retry total piov k hk hpiov hlt hbenign hfuel
    have hne : piov ≠ [] := by
      intro hnil
      have hlen := congrArg List.length hpiov
      rw [hnil, List.flatten_nil, List.length_nil, List.length_drop] at hlen
      omega
    rw [stdOpSetLoop, if_neg hne]
    rcases hk.transfer hpiov hlt with ⟨m, k', hrun, hm, hle, hat, has⟩ | ⟨k', hrun, hat, has⟩ |
      ⟨ready, k', -, -, has⟩ | hfail
    · simp only [hrun, if_neg hm.ne']
      by_cases hend : all.length = total + m
      · rw [if_pos hend]
        refine ⟨k', ?_, hend ▸ hat⟩
        rw [hend]
        rfl
      · rw [if_neg hend]
        simp only [if_true]
        have hstep : (stepSet m piov).flatten = all.drop (total + m) := by
          rw [flatten_stepSet, hpiov, List.drop_drop]
          rw [hpiov, List.length_drop]
          omega
        have hnext : Benign 10 k'.answers ∧ k'.answers.length ≤ k.answers.length := by
          rcases has with ⟨hnil, hnil'⟩ | ⟨n, hpart⟩
          · rw [hnil, hnil']
            exact ⟨trivial, le_rfl⟩
          · rw [hpart] at hbenign ⊢
            exact ⟨hbenign.of_part, Nat.le_succ _⟩
        exact ih 10 (total + m) _ k' hat hstep (by omega) hnext.1 (by omega)
    · rw [has] at hbenign hfuel
      cases retry with
      | zero => exact absurd hbenign (by simp [Benign])
      | succ retry =>
        simp only [hrun, if_neg (Nat.succ_ne_zero retry), Nat.add_sub_cancel]
        exact ih retry total piov k' hat hpiov hlt hbenign (by simp at hfuel; omega)
    · rw [has] at hbenign
      exact absurd hbenign Benign.not_again
    · exact absurd hfail hbenign.not_fail

/-- The loop of `_process_op` transfers what is left. -/
theorem processOp_spec {iov : List (List α)} (hiov : iov.flatten = all)
    (hlen : all.length < 2 ^ 64) : ∀ (fuel total : Nat) (k : Kernel α), k.At all total →
      total ≤ all.length → Steady k.answers → k.answers.length + (all.length - total) < fuel →
      ∃ k', processOp Kernel.transfer true iov fuel total k = .ok (all.length, false, k') ∧
        k'.At all all.length := by
  have htotal : totalLen iov = all.length := by rw [totalLen_eq (hiov ▸ hlen), hiov]
  intro fuel
  induction fuel with
  | zero => intro total k _ _ _ hfuel; omega
  | succ fuel ih =>
    intro total k hk hle hsteady hfuel
    rw [processOp, htotal]
    by_cases hend : total = all.length
    · rw [if_pos hend]
      exact ⟨k, by rw [hend], hend ▸ hk⟩
    rw [if_neg hend]
    have hoffer : (fixOffset total iov).flatten = all.drop total := by
      rw [flatten_fixOffset, hiov]
    rcases hk.transfer hoffer (by omega) with ⟨m, k', hrun, hm, hle', hat, has⟩ |
      ⟨k', hrun, hat, has⟩ | ⟨ready, k', hrun, hat, has⟩ | hfail
    · simp only [hrun, if_neg hm.ne', if_true]
      have hnext : Steady k'.answers ∧ k'.answers.length ≤ k.answers.length := by
        rcases has with ⟨-, hnil⟩ | ⟨n, hpart⟩
        · rw [hnil]
          exact ⟨by simp [Steady], Nat.zero_le _⟩
        · rw [hpart] at hsteady ⊢
          exact ⟨hsteady.tail, Nat.le_succ _⟩
      exact ih (total + m) k' hat hle' hnext.1 (by omega)
    · rw [has] at hsteady hfuel
      simp only [hrun]
      exact ih total k' hat hle hsteady.tail (by simp at hfuel; omega)
    · rw [has] at hsteady hfuel
      have hready : ready = true := by
        have hne := (hsteady _ (List.mem_cons_self ..)).2
        simpa using hne
      simp only [hrun, hready, if_true]
      exact ih total k' hat hle hsteady.tail (by simp at hfuel; omega)
    · exact absurd rfl (hsteady _ hfail).1

/-- The loop of `file_op` on the concatenation transfers what is left. -/
theorem fileOp_spec (hlen : all.length < 2 ^ 31) : ∀ (fuel retry total : Nat) (k : Kernel α),
    k.At all total → total ≤ all.length → Benign retry k.answers →
    k.answers.length + (all.length - total) < fuel → ∃ k',
      fileOp (fun total count => Kernel.transfer [(all.drop total).take count]) all.length true fuel
        retry total k = .ok (all.length, k') ∧ k'.At all all.length := by
  intro fuel
  induction fuel with
  | zero => intro retry total k _ _ _ hfuel; omega
  | succ fuel ih =>
    intro retry total k hk hle hbenign hfuel
    rw [fileOp]
    by_cases hend : total = all.length
    · rw [if_pos (by rw [hend])]
      exact ⟨k, by rw [hend], hend ▸ hk⟩
    have hcount : (((all.length : Int) - total) % 2 ^ 64).toNat = all.length - total := by omega
    have hoffer : [(all.drop total).take (all.length - total)].flatten = all.drop total := by
      rw [List.flatten_singleton, List.take_of_length_le (by rw [List.length_drop])]
    rw [if_neg (by omega), hcount]
    rcases hk.transfer hoffer (by omega) with ⟨m, k', hrun, hm, hle', hat, has⟩ |
      ⟨k', hrun, hat, has⟩ | ⟨ready, k', -, -, has⟩ | hfail
    · simp only [hrun, if_neg hm.ne', if_true]
      have hnext : Benign STD_MAX_EINTR k'.answers ∧ k'.answers.length ≤ k.answers.length := by
        rcases has with ⟨hnil, hnil'⟩ | ⟨n, hpart⟩
        · rw [hnil, hnil']
          exact ⟨trivial, le_rfl⟩
        · rw [hpart] at hbenign ⊢
          exact ⟨hbenign.of_part, Nat.le_succ _⟩
      exact ih STD_MAX_EINTR (total + m) k' hat hle' hnext.1 (by omega)
    · rw [has] at hbenign hfuel
      cases retry with
      | zero => exact absurd hbenign (by simp [Benign])
      | succ retry =>
        simp only [hrun, if_neg (Nat.succ_ne_zero retry), Nat.add_sub_cancel]
        exact ih retry total k' hat hle hbenign (by simp at hfuel; omega)
    · rw [has] at hbenign
      exact absurd hbenign Benign.not_again
    · exact absurd hfail hbenign.not_fail

/-- What a transfer of `all` is to do: every call is offered what is left, and each byte is
transferred once, in order. -/
def Kernel.Transferred (all : List α) (k : Kernel α) : Prop :=
  k.moved = all ∧ ∀ c ∈ k.calls, c.2 = all.drop c.1

theorem Kernel.At.transferred {k : Kernel α} (h : k.At all all.length) : k.Transferred all :=
  ⟨h.moved.trans (List.take_length ..), h.calls⟩

/-- A vectored transfer through `std_write_set` or `std_read_set` and one through `std_socket_op`
do the same as a transfer of the concatenated buffers through `std_write` or `std_read`, however
the kernel cuts them into pieces. -/
theorem vectored_transfer (data : List (List α)) (hlen : data.flatten.length < 2 ^ 31)
    (as : List Answer) (fuel : Nat) (hfuel : as.length + data.flatten.length < fuel) :
    (Benign STD_MAX_EINTR as → ∃ k, stdOpSet Kernel.transfer true data fuel ⟨as, [], []⟩ =
      .ok (data.flatten.length, false, k) ∧ k.Transferred data.flatten) ∧
    (Steady as → ∃ k, processOp Kernel.transfer true data fuel 0 ⟨as, [], []⟩ =
      .ok (data.flatten.length, false, k) ∧ k.Transferred data.flatten) ∧
    (Benign STD_MAX_EINTR as → ∃ k,
      fileOp (fun total count => Kernel.transfer [(data.flatten.drop total).take count])
        data.flatten.length true fuel STD_MAX_EINTR 0 ⟨as, [], []⟩ = .ok (data.flatten.length, k) ∧
      k.Transferred data.flatten) := by
  have hinit := Kernel.At.init data.flatten as
  refine ⟨?_, ?_, ?_⟩
  · intro hbenign
    have hflat := flatten_filter_length data
    have htotal : totalLen (data.filter fun b => b.length ≠ 0) = data.flatten.length := by
      rw [totalLen_eq (by rw [hflat]; omega), hflat]
    rw [stdOpSet, htotal]
    by_cases hnil : data.flatten = []
    · -- no buffer is left, and no call is made
      have hempty : (data.filter fun b => b.length ≠ 0) = [] := by
        rw [List.filter_eq_nil_iff]
        intro b hb
        simpa using List.flatten_eq_nil_iff.mp hnil b hb
      obtain ⟨fuel, rfl⟩ : ∃ n, fuel = n + 1 := ⟨fuel - 1, by omega⟩
      refine ⟨⟨as, [], []⟩, ?_, hnil.symm, by simp⟩
      rw [hempty, stdOpSetLoop, if_pos rfl, hnil]
      rfl
    · have hpos := List.length_pos_of_ne_nil hnil
      obtain ⟨k, hrun, hk⟩ := stdOpSetLoop_spec fuel 10 0 _ ⟨as, [], []⟩ hinit hflat hpos hbenign
        (by simp only; omega)
      exact ⟨k, hrun, hk.transferred⟩
  · intro hsteady
    obtain ⟨k, hrun, hk⟩ := processOp_spec rfl (by omega) fuel 0 ⟨as, [], []⟩ hinit
      (Nat.zero_le _) hsteady (by simp only; omega)
    exact ⟨k, hrun, hk.transferred⟩
  · intro hbenign
    obtain ⟨k, hrun, hk⟩ := fileOp_spec hlen fuel STD_MAX_EINTR 0 ⟨as, [], []⟩ hinit
      (Nat.zero_le _) hbenign (by simp only; omega)
    exact ⟨k, hrun, hk.transferred⟩

theorem vectored_transfer_sample :
    (∃ k, stdOpSet Kernel.transfer true [[1, 2], [], [3, 4, 5]] 9 ⟨[.part 2, .eintr], [], []⟩ =
      .ok (5, false, k) ∧ k.Transferred [1, 2, 3, 4, 5]) ∧
    ∃ k, processOp Kernel.transfer true [[1, 2], [], [3, 4, 5]] 9 0
      ⟨[.part 1, .again true, .eintr], [], []⟩ = .ok (5, false, k) ∧
      k.Transferred [1, 2, 3, 4, 5] := by
  constructor
  · apply (vectored_transfer [[1, 2], [], [3, 4, 5]] (by decide) _ 9 (by decide)).1
    simp [Benign, STD_MAX_EINTR]
  · apply (vectored_transfer [[1, 2], [], [3, 4, 5]] (by decide) _ 9 (by decide)).2.1
    simp [Steady]

end OpxCommonUtils.Io
