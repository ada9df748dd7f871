import OpxCommonUtils.Io.Proofs.Vectored

/-!
# Interrupted calls

The kernel answers call `i` with `s i` and its world is the number of calls so far. The loops of
`file_op` and `_std_op_set` come to an end because each call uses up a byte or an interruption
(`Within`); the one of `_process_op` decrements an unsigned counter, so that it ends only where the
kernel stops interrupting.
-/

namespace OpxCommonUtils.Io

variable {α : Type}

/-- What a call that is asked for `count` bytes returns. -/
def Rc.upTo (count : Nat) : Rc → Rc
  | .done n => .done (min n count)
  | rc => rc

/-- The kernel that answers call `i` with `s i`. -/
def answering (s : Nat → Rc) (count calls : Nat) : Rc × Nat := ((s calls).upTo count, calls + 1)

/-- `STD_MAX_EINTR + 1` calls from `j` on are interrupted. -/
def Storm (s : Nat → Rc) (j : Nat) : Prop := ∀ t ≤ STD_MAX_EINTR, s (j + t) = .eintr

/-- What `file_op` returns and whether it stores an error: both returns of `-1` do. -/
def fileOpErr (s : Nat → Rc) (len : Int) (requireAll : Bool) (fuel retry total calls : Nat) :
    Exec (Int × Bool × Nat) := do
  let (rc, calls) ← fileOp (fun _ count => answering s count) len requireAll fuel retry total calls
  return (rc, decide (rc = -1), calls)

/-- The loop `run`, which delivers the value returned, whether an error is stored and the number of
calls, retries interrupted calls and gives up once more than `STD_MAX_EINTR` consecutive ones are
interrupted. Where no call would block it makes no more than so many calls for each byte. -/
structure Bounded (s : Nat → Rc) (bytes : Nat) (run : Nat → Exec (Int × Bool × Nat)) : Prop where
  gives_up : ∀ j, Storm s j → ∃ fuel rc err calls, run fuel = .ok (rc, err, calls) ∧
    calls ≤ j + STD_MAX_EINTR + 1 ∧ (calls = j + STD_MAX_EINTR + 1 → rc = -1 ∧ err = true)
  retries : ∀ fuel err i, run fuel = .ok (-1, err, i + 1) → s i = .eintr →
    ∃ j, i = j + STD_MAX_EINTR ∧ Storm s j
  calls_le : (∀ i ready, s i ≠ .again ready) → ∃ fuel rc err calls,
    run fuel = .ok (rc, err, calls) ∧ calls ≤ (bytes + 1) * (STD_MAX_EINTR + 1)

/-! ## Budgets -/

/-- A run that is at call `i`, with `k` interruptions and `left` bytes to go, ends in time. -/
def Within (s : Nat → Rc) (i k left : Nat) (r : Exec (Int × Bool × Nat)) : Prop :=
  ∃ rc err calls, r = .ok (rc, err, calls) ∧ calls ≤ i + left * (STD_MAX_EINTR + 1) + k + 1 ∧
    ∀ j, Storm s j → i + k ≤ j + STD_MAX_EINTR → calls ≤ j + STD_MAX_EINTR + 1 ∧
      (calls = j + STD_MAX_EINTR + 1 → rc = -1 ∧ err = true)

namespace Within

variable {s : Nat → Rc} {i k left : Nat} {r : Exec (Int × Bool × Nat)} {rc : Int} {err : Bool}

/-- A call that is not interrupted comes before a storm. -/
theorem lt_storm {j : Nat} (hs : s i ≠ .eintr) (hj : Storm s j) (hle : i ≤ j + STD_MAX_EINTR) :
    i < j := by
  by_contra hlt
  have h := hj (i - j) (by omega)
  rw [show j + (i - j) = i by omega] at h
  exact hs h

/-- The loop ends before the call. -/
theorem stop (hr : r = .ok (rc, err, i)) : Within s i k left r :=
  ⟨rc, err, i, hr, by omega, fun j _ hle => ⟨by omega, fun h => by omega⟩⟩

/-- The loop ends with a call that is not interrupted. -/
theorem ended (hs : s i ≠ .eintr) (hr : r = .ok (rc, err, i + 1)) : Within s i k left r := by
  refine ⟨rc, err, i + 1, hr, by omega, fun j hj hle => ?_⟩
  have hlt := lt_storm hs hj (by omega)
  exact ⟨by omega, fun h => by simp only [STD_MAX_EINTR] at h; omega⟩

/-- The budget is used up. -/
theorem exhausted (hr : r = .ok (-1, true, i + 1)) : Within s i 0 left r :=
  ⟨-1, true, i + 1, hr, by omega, fun j _ hle => ⟨by omega, fun _ => ⟨rfl, rfl⟩⟩⟩

theorem interrupted (h : Within s (i + 1) k left r) : Within s i (k + 1) left r := by
  obtain ⟨rc, err, calls, hr, hle, hstorm⟩ := h
  exact ⟨rc, err, calls, hr, by omega, fun j hj hij => hstorm j hj (by omega)⟩

theorem progress {n : Nat} (hs : s i ≠ .eintr) (hn : 0 < n) (hle : n ≤ left)
    (h : Within s (i + 1) STD_MAX_EINTR (left - n) r) : Within s i k left r := by
  obtain ⟨rc, err, calls, hr, hcalls, hstorm⟩ := h
  refine ⟨rc, err, calls, hr, ?_, fun j hj hij => hstorm j hj ?_⟩
  · obtain ⟨m, rfl⟩ : ∃ m, left = m + n := ⟨left - n, by omega⟩
    rw [Nat.add_sub_cancel] at hcalls
    have hmul : (m + 1) * (STD_MAX_EINTR + 1) ≤ (m + n) * (STD_MAX_EINTR + 1) :=
      Nat.mul_le_mul_right _ (by omega)
    rw [Nat.add_mul m 1] at hmul
    omega
  · have hlt := lt_storm hs hj (by omega)
    omega

end Within

/-- The last `STD_MAX_EINTR - k` calls before call `i` were interrupted. -/
def Streak (s : Nat → Rc) (i k : Nat) : Prop :=
  ∃ j, i + k = j + STD_MAX_EINTR ∧ j ≤ i ∧ ∀ c, j ≤ c → c < i → s c = .eintr

namespace Streak

variable {s : Nat → Rc} {i k : Nat}

theorem init (s : Nat → Rc) (i : Nat) : Streak s i STD_MAX_EINTR :=
  ⟨i, rfl, le_rfl, fun c _ _ => by omega⟩

theorem interrupted (h : Streak s i (k + 1)) (hs : s i = .eintr) : Streak s (i + 1) k := by
  obtain ⟨j, hj, hle, hc⟩ := h
  refine ⟨j, by omega, by omega, fun c hjc hci => ?_⟩
  rcases Nat.lt_succ_iff_lt_or_eq.mp hci with hlt | rfl
  · exact hc c hjc hlt
  · exact hs

theorem storm (h : Streak s i 0) (hs : s i = .eintr) : ∃ j, i = j + STD_MAX_EINTR ∧ Storm s j := by
  obtain ⟨j, hj, -, hc⟩ := h
  refine ⟨j, hj, fun t ht => ?_⟩
  rcases Nat.lt_or_eq_of_le ht with hlt | rfl
  · exact hc _ (by omega) (by omega)
  · rwa [← hj]

end Streak

/-! ## `file_op` and `_std_op_set` -/

variable {s : Nat → Rc}

theorem fileOp_within {len : Nat} (hlen : len < 2 ^ 31) (requireAll : Bool) :
    ∀ (fuel k total i : Nat), total ≤ len → (len - total) * (STD_MAX_EINTR + 1) + k + 1 < fuel →
      Within s i k (len - total) (fileOpErr s len requireAll fuel k total i) := by
  intro fuel
  induction fuel with
  | zero => intro k total i _ hf; omega
  | succ fuel ih =>
    intro k total i hle hf
    rw [fileOpErr, fileOp]
    by_cases hdone : (total : Int) = len
    · rw [if_pos hdone]
      exact .stop rfl
    have hcount : (((len : Int) - total) % 2 ^ 64).toNat = len - total := by omega
    simp only [if_neg hdone, hcount, answering]
    cases hs : s i with
    | eintr =>
      cases k with
      | zero => exact .exhausted rfl
      | succ k => exact .interrupted (ih k total (i + 1) hle (by omega))
    | again ready => exact .ended (by simp [hs]) rfl
    | fail => exact .ended (by simp [hs]) rfl
    | done n =>
      have hne : s i ≠ .eintr := by simp [hs]
      simp only [Rc.upTo]
      by_cases hn : min n (len - total) = 0
      · exact .ended hne (by rw [if_pos hn]; rfl)
      rw [if_neg hn]
      cases requireAll with
      | false => exact .ended hne rfl
      | true =>
        refine .progress hne (Nat.pos_of_ne_zero hn) (by omega) ?_
        rw [Nat.sub_sub]
        have hmul : (len - (total + min n (len - total)) + 1) * (STD_MAX_EINTR + 1) ≤
            (len - total) * (STD_MAX_EINTR + 1) := Nat.mul_le_mul_right _ (by omega)
        rw [Nat.add_mul] at hmul
        exact ih STD_MAX_EINTR _ (i + 1) (by omega) (by omega)

theorem stdOpSetLoop_within (requireAll : Bool) (totalLen : Nat) :
    ∀ (fuel k total : Nat) (piov : List (List α)) (i : Nat),
      piov.flatten.length * (STD_MAX_EINTR + 1) + k + 1 < fuel →
      Within s i k piov.flatten.length
        (stdOpSetLoop (fun iov => answering s iov.flatten.length) requireAll totalLen fuel k total
          piov i) := by
  intro fuel
  induction fuel with
  | zero => intro k total piov i hf; omega
  | succ fuel ih =>
    intro k total piov i hf
    rw [stdOpSetLoop]
    by_cases hnil : piov = []
    · exact .stop (by rw [if_pos hnil])
    simp only [if_neg hnil, answering]
    cases hs : s i with
    | eintr =>
      cases k with
      | zero => exact .exhausted rfl
      | succ k => exact .interrupted (ih k total piov (i + 1) (by omega))
    | again ready => exact .ended (by simp [hs]) rfl
    | fail => exact .ended (by simp [hs]) rfl
    | done n =>
      have hne : s i ≠ .eintr := by simp [hs]
      simp only [Rc.upTo]
      by_cases hn : min n piov.flatten.length = 0
      · exact .ended hne (by rw [if_pos hn])
      rw [if_neg hn]
      by_cases hall : totalLen = total + min n piov.flatten.length
      · exact .ended hne (by rw [if_pos hall])
      rw [if_neg hall]
      cases requireAll with
      | false => exact .ended hne rfl
      | true =>
        have hrest : (stepSet (min n piov.flatten.length) piov).flatten.length =
            piov.flatten.length - min n piov.flatten.length := by
          rw [flatten_stepSet (Nat.min_le_right ..), List.length_drop]
        refine .progress hne (Nat.pos_of_ne_zero hn) (Nat.min_le_right ..) ?_
        have hmul : (piov.flatten.length - min n piov.flatten.length + 1) * (STD_MAX_EINTR + 1) ≤
            piov.flatten.length * (STD_MAX_EINTR + 1) := Nat.mul_le_mul_right _ (by omega)
        rw [Nat.add_mul] at hmul
        rw [← hrest] at hmul ⊢
        exact ih STD_MAX_EINTR _ _ (i + 1) (by omega)

theorem fileOp_retries {len : Int} {requireAll : Bool} :
    ∀ {fuel k total i c : Nat} {err : Bool}, Streak s i k →
      fileOpErr s len requireAll fuel k total i = .ok (-1, err, c + 1) → s c = .eintr →
      ∃ j, c = j + STD_MAX_EINTR ∧ Storm s j := by
  intro fuel
  induction fuel with
  | zero => intro k total i c err _ h _; simp [fileOpErr, fileOp] at h
  | succ fuel ih =>
    intro k total i c err hk h hc
    rw [fileOpErr, fileOp] at h
    by_cases hdone : (total : Int) = len
    · simp only [if_pos hdone, exec_bind_ok, exec_pure, Except.ok.injEq, Prod.mk.injEq] at h
      omega
    simp only [if_neg hdone, answering] at h
    cases hs : s i with
    | eintr =>
      cases k with
      | zero =>
        simp only [hs, Rc.upTo, if_pos, exec_bind_ok, exec_pure, Except.ok.injEq,
          Prod.mk.injEq] at h
        obtain rfl : i = c := by omega
        exact hk.storm hs
      | succ k =>
        simp only [hs, Rc.upTo, if_neg (Nat.succ_ne_zero k), Nat.add_sub_cancel] at h
        exact ih (hk.interrupted hs) h hc
    | again ready =>
      simp only [hs, Rc.upTo, exec_bind_ok, exec_pure, Except.ok.injEq, Prod.mk.injEq] at h
      obtain rfl : i = c := by omega
      simp [hs] at hc
    | fail =>
      simp only [hs, Rc.upTo, exec_bind_ok, exec_pure, Except.ok.injEq, Prod.mk.injEq] at h
      obtain rfl : i = c := by omega
      simp [hs] at hc
    | done n =>
      simp only [hs, Rc.upTo] at h
      split_ifs at h
      · simp only [exec_bind_ok, exec_pure, Except.ok.injEq, Prod.mk.injEq] at h
        omega
      · exact ih (.init s (i + 1)) h hc
      · simp only [exec_bind_ok, exec_pure, Except.ok.injEq, Prod.mk.injEq] at h
        omega

theorem stdOpSetLoop_retries {requireAll : Bool} {totalLen : Nat} :
    ∀ {fuel k total : Nat} {piov : List (List α)} {i c : Nat} {err : Bool}, Streak s i k →
      stdOpSetLoop (fun iov => answering s iov.flatten.length) requireAll totalLen fuel k total piov
        i = .ok (-1, err, c + 1) → s c = .eintr → ∃ j, c = j + STD_MAX_EINTR ∧ Storm s j := by
  intro fuel
  induction fuel with
  | zero => intro k total piov i c err _ h _; simp [stdOpSetLoop] at h
  | succ fuel ih =>
    intro k total piov i c err hk h hc
    rw [stdOpSetLoop] at h
    by_cases hnil : piov = []
    · simp only [if_pos hnil, Except.ok.injEq, Prod.mk.injEq] at h
      omega
    simp only [if_neg hnil, answering] at h
    cases hs : s i with
    | eintr =>
      cases k with
      | zero =>
        simp only [hs, Rc.upTo, if_pos, Except.ok.injEq, Prod.mk.injEq] at h
        obtain rfl : i = c := by omega
        exact hk.storm hs
      | succ k =>
        simp only [hs, Rc.upTo, if_neg (Nat.succ_ne_zero k), Nat.add_sub_cancel] at h
        exact ih (hk.interrupted hs) h hc
    | again ready =>
      simp only [hs, Rc.upTo, Except.ok.injEq, Prod.mk.injEq] at h
      obtain rfl : i = c := by omega
      simp [hs] at hc
    | fail =>
      simp only [hs, Rc.upTo, Except.ok.injEq, Prod.mk.injEq] at h
      obtain rfl : i = c := by omega
      simp [hs] at hc
    | done n =>
      simp only [hs, Rc.upTo] at h
      split_ifs at h
      · simp only [Except.ok.injEq, Prod.mk.injEq] at h
        omega
      · simp only [Except.ok.injEq, Prod.mk.injEq] at h
        omega
      · exact ih (.init s (i + 1)) h hc
      · simp only [Except.ok.injEq, Prod.mk.injEq] at h
        omega

theorem Bounded.of_within {run : Nat → Exec (Int × Bool × Nat)} {bytes : Nat} (fuel : Nat)
    (h : Within s 0 STD_MAX_EINTR bytes (run fuel))
    (hretries : ∀ fuel err i, run fuel = .ok (-1, err, i + 1) → s i = .eintr →
      ∃ j, i = j + STD_MAX_EINTR ∧ Storm s j) : Bounded s bytes run := by
  obtain ⟨rc, err, calls, hr, hle, hstorm⟩ := h
  refine ⟨fun j hj => ?_, hretries, fun _ => ⟨fuel, rc, err, calls, hr, ?_⟩⟩
  · obtain ⟨hle, hend⟩ := hstorm j hj (by omega)
    exact ⟨fuel, rc, err, calls, hr, hle, hend⟩
  · rw [Nat.add_mul]
    omega

theorem fileOp_bounded (s : Nat → Rc) {len : Nat} (hlen : len < 2 ^ 31) (requireAll : Bool) :
    Bounded s len fun fuel => fileOpErr s len requireAll fuel STD_MAX_EINTR 0 0 := by
  have h := fileOp_within (s := s) hlen requireAll
    ((len - 0) * (STD_MAX_EINTR + 1) + STD_MAX_EINTR + 2) STD_MAX_EINTR 0 0 (by omega) (by omega)
  exact .of_within _ (by simpa using h) fun fuel err i hr hs => fileOp_retries (.init s 0) hr hs

theorem stdOpSet_bounded (s : Nat → Rc) (data : List (List α)) (requireAll : Bool) :
    Bounded s data.flatten.length fun fuel =>
      stdOpSet (fun iov => answering s iov.flatten.length) requireAll data fuel 0 := by
  refine .of_within (data.flatten.length * (STD_MAX_EINTR + 1) + STD_MAX_EINTR + 2) ?_
    fun fuel err i hr hs => stdOpSetLoop_retries (.init s 0) hr hs
  rw [← flatten_filter_length data]
  exact stdOpSetLoop_within _ _ _ _ _ _ _ (by omega)

/-! ## `_process_op` -/

/-- The socket loop calls again after such an answer. -/
def Rc.GoesOn (sendAll : Bool) : Rc → Prop
  | .eintr => True
  | .again ready => ready = true
  | .fail => False
  | .done n => n ≠ 0 ∧ sendAll = true

/-- The bytes an answer transfers. -/
def Rc.amount : Rc → Nat
  | .done n => n
  | _ => 0

/-- The bytes that the answers before call `j` transfer. -/
def transferred (s : Nat → Rc) : Nat → Nat
  | 0 => 0
  | j + 1 => transferred s j + (s j).amount

/-- No answer before call `j` ends a transfer of `bytes` bytes through the socket loop. -/
def Reached (s : Nat → Rc) (bytes : Nat) (sendAll : Bool) (j : Nat) : Prop :=
  (∀ i < j, (s i).GoesOn sendAll) ∧ transferred s j < bytes

theorem transferred_mono {i j : Nat} (h : i ≤ j) : transferred s i ≤ transferred s j := by
  induction h with
  | refl => exact le_rfl
  | step _ ih =>
    rw [transferred]
    omega

theorem Reached.mono {bytes i j : Nat} {sendAll : Bool} (h : Reached s bytes sendAll j)
    (hij : i ≤ j) : Reached s bytes sendAll i :=
  ⟨fun c hc => h.1 c (by omega), lt_of_le_of_lt (transferred_mono hij) h.2⟩

theorem Reached.next {bytes i : Nat} {sendAll : Bool} (h : Reached s bytes sendAll i)
    (hgo : (s i).GoesOn sendAll) (hlt : transferred s (i + 1) < bytes) :
    Reached s bytes sendAll (i + 1) := by
  refine ⟨fun c hc => ?_, hlt⟩
  rcases Nat.lt_succ_iff_lt_or_eq.mp hc with hc | rfl
  · exact h.1 c hc
  · exact hgo

/-- A storm keeps the loop where it is. -/
theorem Reached.storm {bytes j : Nat} {sendAll : Bool} (h : Reached s bytes sendAll j)
    (hs : Storm s j) : ∀ t ≤ STD_MAX_EINTR + 1, Reached s bytes sendAll (j + t) := by
  intro t
  induction t with
  | zero => intro _; exact h
  | succ t ih =>
    intro ht
    have hj := ih (by omega)
    have hcall : s (j + t) = .eintr := hs t (by omega)
    refine hj.next (by rw [hcall]; trivial) ?_
    rw [transferred, hcall]
    exact hj.2

section Socket

variable {iov : List (List α)} {sendAll : Bool}

/-- The socket loop under the answers `s`. -/
abbrev socketLoop (s : Nat → Rc) (sendAll : Bool) (iov : List (List α)) (fuel total calls : Nat) :
    Exec (Int × Bool × Nat) :=
  processOp (fun iov => answering s iov.flatten.length) sendAll iov fuel total calls

theorem socketLoop_end (hlen : iov.flatten.length < 2 ^ 63) (fuel i : Nat) :
    socketLoop s sendAll iov (fuel + 1) iov.flatten.length i =
      .ok (iov.flatten.length, false, i) := by
  rw [socketLoop, processOp, if_pos (totalLen_eq (by omega)).symm]

/-- An answer after which the loop goes on. -/
theorem socketLoop_next (hlen : iov.flatten.length < 2 ^ 63) {i : Nat}
    (hi : Reached s iov.flatten.length sendAll i) (hgo : (s i).GoesOn sendAll) (fuel : Nat) :
    socketLoop s sendAll iov (fuel + 1) (transferred s i) i =
      socketLoop s sendAll iov fuel (min iov.flatten.length (transferred s (i + 1))) (i + 1) := by
  have hlt := hi.2
  have hoff : (fixOffset (transferred s i) iov).flatten.length =
      iov.flatten.length - transferred s i := by
    rw [flatten_fixOffset, List.length_drop]
  rw [socketLoop, processOp, if_neg (by rw [totalLen_eq (by omega)]; omega)]
  simp only [answering, hoff, transferred]
  cases hs : s i with
  | eintr =>
    simp only [Rc.amount, Nat.add_zero, Nat.min_eq_right hlt.le]
    rfl
  | again ready =>
    simp only [hs, Rc.GoesOn] at hgo
    simp only [Rc.amount, Nat.add_zero, Nat.min_eq_right hlt.le, hgo]
    rfl
  | fail => simp [hs, Rc.GoesOn] at hgo
  | done n =>
    simp only [hs, Rc.GoesOn] at hgo
    obtain ⟨hn, rfl⟩ := hgo
    simp only [Rc.upTo, Rc.amount, if_true]
    rw [if_neg (by omega)]
    congr 1
    omega

/-- An answer that ends the loop. -/
theorem socketLoop_ends (hlen : iov.flatten.length < 2 ^ 63) {i : Nat}
    (hi : Reached s iov.flatten.length sendAll i) (hgo : ¬ (s i).GoesOn sendAll) (fuel : Nat) :
    ∃ rc err, socketLoop s sendAll iov (fuel + 1) (transferred s i) i = .ok (rc, err, i + 1) := by
  have hlt := hi.2
  rw [socketLoop, processOp, if_neg (by rw [totalLen_eq (by omega)]; omega)]
  simp only [answering]
  cases hs : s i with
  | eintr => simp [hs, Rc.GoesOn] at hgo
  | again ready =>
    simp only [hs, Rc.GoesOn] at hgo
    exact ⟨-1, true, by simp only [Rc.upTo, if_neg hgo]⟩
  | fail => exact ⟨-1, true, rfl⟩
  | done n =>
    simp only [Rc.upTo]
    split_ifs with h0 hall hall
    · exact ⟨_, _, rfl⟩
    · exact ⟨_, _, rfl⟩
    · simp only [hs, Rc.GoesOn, hall, and_true, not_not] at hgo
      omega
    · exact ⟨_, _, rfl⟩

/-- The loop makes its calls one after the other, and it never gives up over an interrupted one. -/
theorem socketLoop_ok : ∀ {fuel total i : Nat} {rc : Int} {err : Bool} {calls : Nat},
    socketLoop s sendAll iov fuel total i = .ok (rc, err, calls) →
      i ≤ calls ∧ (rc = -1 → ∃ c, calls = c + 1 ∧ s c ≠ .eintr) := by
  intro fuel
  induction fuel with
  | zero => intro total i rc err calls h; simp [socketLoop, processOp] at h
  | succ fuel ih =>
    intro total i rc err calls h
    -- the calls that follow come after call `i`
    have hnext {total : Nat} (h : socketLoop s sendAll iov fuel total (i + 1) =
        .ok (rc, err, calls)) : i ≤ calls ∧ (rc = -1 → ∃ c, calls = c + 1 ∧ s c ≠ .eintr) :=
      ⟨Nat.le_of_succ_le (ih h).1, (ih h).2⟩
    rw [socketLoop, processOp] at h
    by_cases hdone : total = totalLen iov
    · simp only [if_pos hdone, Except.ok.injEq, Prod.mk.injEq] at h
      exact ⟨h.2.2.le, by omega⟩
    simp only [if_neg hdone, answering] at h
    cases hs : s i with
    | eintr =>
      simp only [hs, Rc.upTo] at h
      exact hnext h
    | again ready =>
      simp only [hs, Rc.upTo] at h
      split_ifs at h
      · exact hnext h
      · simp only [Except.ok.injEq, Prod.mk.injEq] at h
        exact ⟨by omega, fun _ => ⟨i, h.2.2.symm, by simp [hs]⟩⟩
    | fail =>
      simp only [hs, Rc.upTo, Except.ok.injEq, Prod.mk.injEq] at h
      exact ⟨by omega, fun _ => ⟨i, h.2.2.symm, by simp [hs]⟩⟩
    | done n =>
      simp only [hs, Rc.upTo] at h
      split_ifs at h
      · simp only [Except.ok.injEq, Prod.mk.injEq] at h
        omega
      · simp only [Except.ok.injEq, Prod.mk.injEq] at h
        omega
      · exact hnext h
      · simp only [Except.ok.injEq, Prod.mk.injEq] at h
        omega

/-- The loop ends before call `j`, or no answer before it ends the transfer. -/
theorem socketLoop_reaches (hlen : iov.flatten.length < 2 ^ 63) :
    ∀ (d i : Nat), Reached s iov.flatten.length sendAll i →
      (∃ fuel rc err calls, socketLoop s sendAll iov fuel (transferred s i) i =
        .ok (rc, err, calls) ∧ calls ≤ i + d) ∨ Reached s iov.flatten.length sendAll (i + d) := by
  intro d
  induction d with
  | zero => intro i hi; exact .inr hi
  | succ d ih =>
    intro i hi
    by_cases hgo : (s i).GoesOn sendAll
    · by_cases hlt : transferred s (i + 1) < iov.flatten.length
      · rcases ih (i + 1) (hi.next hgo hlt) with ⟨fuel, rc, err, calls, hr, hle⟩ | hr
        · refine .inl ⟨fuel + 1, rc, err, calls, ?_, by omega⟩
          rw [socketLoop_next hlen hi hgo, Nat.min_eq_right hlt.le, hr]
        · exact .inr (by rwa [show i + (d + 1) = i + 1 + d by omega])
      · refine .inl ⟨2, iov.flatten.length, false, i + 1, ?_, by omega⟩
        rw [socketLoop_next hlen hi hgo, Nat.min_eq_left (by omega), socketLoop_end hlen]
    · obtain ⟨rc, err, hr⟩ := socketLoop_ends hlen hi hgo 0
      exact .inl ⟨1, rc, err, i + 1, hr, by omega⟩

/-- A call that the answers reach is made. -/
theorem socketLoop_makes (hlen : iov.flatten.length < 2 ^ 63) {j : Nat}
    (hj : Reached s iov.flatten.length sendAll j) :
    ∀ {fuel i : Nat} {rc : Int} {err : Bool} {calls : Nat}, i ≤ j →
      socketLoop s sendAll iov fuel (transferred s i) i = .ok (rc, err, calls) → j < calls := by
  intro fuel
  induction fuel with
  | zero => intro i rc err calls _ h; simp [socketLoop, processOp] at h
  | succ fuel ih =>
    intro i rc err calls hle h
    have hi := hj.mono hle
    by_cases hgo : (s i).GoesOn sendAll
    · rw [socketLoop_next hlen hi hgo] at h
      rcases Nat.lt_or_eq_of_le hle with hlt | rfl
      · rw [Nat.min_eq_right (hj.mono hlt).2.le] at h
        exact ih hlt h
      · exact (socketLoop_ok h).1
    · obtain ⟨rc', err', hr⟩ := socketLoop_ends hlen hi hgo fuel
      rw [hr] at h
      simp only [Except.ok.injEq, Prod.mk.injEq] at h
      rcases Nat.lt_or_eq_of_le hle with hlt | rfl
      · exact absurd (hj.1 i hlt) hgo
      · omega

theorem socketLoop_within (hlen : iov.flatten.length < 2 ^ 63)
    (hagain : ∀ i ready, s i ≠ .again ready)
    (hstorm : ∀ j, Reached s iov.flatten.length sendAll j → ¬ Storm s j) :
    ∀ (fuel k i : Nat), Reached s iov.flatten.length sendAll i → Streak s i k →
      (iov.flatten.length - transferred s i) * (STD_MAX_EINTR + 1) + k + 1 < fuel →
      Within s i k (iov.flatten.length - transferred s i)
        (socketLoop s sendAll iov fuel (transferred s i) i) := by
  intro fuel
  induction fuel with
  | zero => intro k i _ _ hf; omega
  | succ fuel ih =>
    intro k i hi hk hf
    have hlt := hi.2
    cases hs : s i with
    | eintr =>
      have hgo : (s i).GoesOn sendAll := by rw [hs]; trivial
      have hsame : transferred s (i + 1) = transferred s i := by rw [transferred, hs]; rfl
      have hnext : Reached s iov.flatten.length sendAll (i + 1) := hi.next hgo (by rwa [hsame])
      rw [socketLoop_next hlen hi hgo, Nat.min_eq_right hnext.2.le]
      cases k with
      | zero =>
        obtain ⟨j, hj, hs⟩ := hk.storm hs
        exact absurd hs (hstorm j (hi.mono (by omega)))
      | succ k =>
        rw [← hsame] at hf ⊢
        exact .interrupted (ih k (i + 1) hnext (hk.interrupted hs) (by omega))
    | again ready => exact absurd hs (hagain i ready)
    | fail =>
      obtain ⟨rc, err, hr⟩ := socketLoop_ends hlen hi (by simp [hs, Rc.GoesOn]) fuel
      exact .ended (by simp [hs]) hr
    | done n =>
      have hne : s i ≠ .eintr := by simp [hs]
      by_cases hgo : (s i).GoesOn sendAll
      · have hn : n ≠ 0 := by
          rw [hs] at hgo
          exact hgo.1
        have hsum : transferred s (i + 1) = transferred s i + n := by rw [transferred, hs]; rfl
        rw [socketLoop_next hlen hi hgo]
        by_cases hmore : transferred s (i + 1) < iov.flatten.length
        · rw [Nat.min_eq_right hmore.le]
          refine .progress hne (Nat.pos_of_ne_zero hn) (by omega) ?_
          rw [Nat.sub_sub, ← hsum]
          have hmul : (iov.flatten.length - transferred s (i + 1) + 1) * (STD_MAX_EINTR + 1) ≤
              (iov.flatten.length - transferred s i) * (STD_MAX_EINTR + 1) :=
            Nat.mul_le_mul_right _ (by omega)
          rw [Nat.add_mul] at hmul
          exact ih STD_MAX_EINTR (i + 1) (hi.next hgo hmore) (.init s _) (by omega)
        · obtain ⟨fuel, rfl⟩ : ∃ m, fuel = m + 1 := ⟨fuel - 1, by omega⟩
          rw [Nat.min_eq_left (by omega), socketLoop_end hlen]
          exact .ended hne rfl
      · obtain ⟨rc, err, hr⟩ := socketLoop_ends hlen hi hgo fuel
        exact .ended hne hr

theorem socketLoop_bounded (hlen : iov.flatten.length < 2 ^ 63)
    (hstorm : ∀ j, Reached s iov.flatten.length sendAll j → ¬ Storm s j) :
    Bounded s iov.flatten.length fun fuel => socketLoop s sendAll iov fuel 0 0 := by
  by_cases hempty : iov.flatten.length = 0
  · have hend : socketLoop s sendAll iov 1 0 0 = .ok (0, false, 0) := by
      have h : socketLoop s sendAll iov 1 iov.flatten.length 0 =
        .ok (iov.flatten.length, false, 0) := socketLoop_end hlen 0 0
      rwa [hempty] at h
    exact ⟨fun j _ => ⟨1, 0, false, 0, hend, by omega, by omega⟩,
      fun fuel err i hr hs => by
        obtain ⟨c, hc, hne⟩ := (socketLoop_ok hr).2 rfl
        obtain rfl := Nat.succ.inj hc
        exact absurd hs hne,
      fun _ => ⟨1, 0, false, 0, hend, by omega⟩⟩
  have hstart : Reached s iov.flatten.length sendAll 0 :=
    ⟨by simp, Nat.pos_of_ne_zero hempty⟩
  refine ⟨fun j hj => ?_, fun fuel err i hr hs => ?_, fun hagain => ?_⟩
  · rcases socketLoop_reaches hlen j 0 hstart with ⟨fuel, rc, err, calls, hr, hle⟩ | hreach
    · exact ⟨fuel, rc, err, calls, hr, by omega, by omega⟩
    · rw [Nat.zero_add] at hreach
      exact absurd hj (hstorm j hreach)
  · obtain ⟨c, hc, hne⟩ := (socketLoop_ok hr).2 rfl
    obtain rfl := Nat.succ.inj hc
    exact absurd hs hne
  · obtain ⟨rc, err, calls, hr, hle, -⟩ := socketLoop_within hlen hagain hstorm _ STD_MAX_EINTR 0
      hstart (.init s 0) (Nat.lt_succ_self _)
    refine ⟨_, rc, err, calls, hr, ?_⟩
    rw [Nat.add_mul]
    simp only [transferred, Nat.sub_zero] at hle
    omega

theorem socketLoop_bounded_iff (hlen : iov.flatten.length < 2 ^ 63) :
    Bounded s iov.flatten.length (fun fuel => socketLoop s sendAll iov fuel 0 0) ↔
      ∀ j, Reached s iov.flatten.length sendAll j → ¬ Storm s j := by
  refine ⟨fun h j hj hs => ?_, socketLoop_bounded hlen⟩
  obtain ⟨fuel, rc, err, calls, hr, hle, -⟩ := h.gives_up j hs
  have hmade := socketLoop_makes hlen (hj.storm hs _ le_rfl) (Nat.zero_le _) hr
  omega

end Socket

/-- The loops of `file_op` and `_std_op_set` retry interrupted calls a bounded number of times. That
of `std_socket_op` does exactly when, of the calls up to the one that ends it, no more than
`STD_MAX_EINTR` consecutive ones are interrupted. -/
theorem interrupted_calls_iff (s : Nat → Rc) (len : Nat) (hlen : len < 2 ^ 31)
    (data iov : List (List α)) (hiov : iov.flatten.length < 2 ^ 63) (all : Bool) :
    (Bounded s len (fun fuel => fileOpErr s len all fuel STD_MAX_EINTR 0 0) ∧
      Bounded s data.flatten.length (fun fuel =>
        stdOpSet (fun iov => answering s iov.flatten.length) all data fuel 0) ∧
      Bounded s iov.flatten.length (fun fuel =>
        processOp (fun iov => answering s iov.flatten.length) all iov fuel 0 0)) ↔
      ∀ j, Reached s iov.flatten.length all j → ¬ Storm s j := by
  rw [← socketLoop_bounded_iff hiov]
  exact ⟨fun h => h.2.2, fun h => ⟨fileOp_bounded s hlen all, stdOpSet_bounded s data all, h⟩⟩

/-- Every second call is interrupted, the others take a byte each. -/
def everySecond (i : Nat) : Rc := if i % 2 = 0 then .eintr else .done 1

theorem interrupted_calls_sample :
    Bounded everySecond 3 (fun fuel => fileOpErr everySecond 3 true fuel STD_MAX_EINTR 0 0) ∧
    Bounded everySecond 3 (fun fuel =>
      stdOpSet (fun iov => answering everySecond iov.flatten.length) true [[1], [2, 3]] fuel 0) ∧
    Bounded everySecond 3 (fun fuel =>
      processOp (fun iov => answering everySecond iov.flatten.length) true [[1], [2, 3]] fuel
        0 0) := by
  refine (interrupted_calls_iff everySecond 3 (by decide) [[1], [2, 3]] [[1], [2, 3]] (by decide)
    true).mpr fun j _ hs => ?_
  have hodd : ∀ i, everySecond i = .eintr → i % 2 = 0 := by
    intro i hi
    unfold everySecond at hi
    split_ifs at hi with heven
    exact heven
  have hfirst := hodd _ (hs 0 (by decide))
  have hsecond := hodd _ (hs 1 (by decide))
  omega

/-- A kernel that interrupts every call keeps the socket loop busy for ever. -/
theorem socket_never_gives_up : ¬ ∀ (s : Nat → Rc) (len : Nat), len < 2 ^ 31 →
    ∀ data iov : List (List UInt8), iov.flatten.length < 2 ^ 63 → ∀ all : Bool,
      Bounded s len (fun fuel => fileOpErr s len all fuel STD_MAX_EINTR 0 0) ∧
      Bounded s data.flatten.length (fun fuel =>
        stdOpSet (fun iov => answering s iov.flatten.length) all data fuel 0) ∧
      Bounded s iov.flatten.length (fun fuel =>
        processOp (fun iov => answering s iov.flatten.length) all iov fuel 0 0) := by
  intro h
  have hiov : ([[0]] : List (List UInt8)).flatten.length < 2 ^ 63 := by decide
  have hs := (socketLoop_bounded_iff hiov).mp (h (fun _ => .eintr) 0 (by decide) [] [[0]] hiov
    true).2.2 0 ⟨by simp, by decide⟩
  exact hs fun _ _ => rfl

end OpxCommonUtils.Io
