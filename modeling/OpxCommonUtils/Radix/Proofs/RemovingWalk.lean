import OpxCommonUtils.Radix.Proofs.Removals
import OpxCommonUtils.Radix.Proofs.WalkReturn
import OpxCommonUtils.Radix.RemovingWalk

/-!
# A walk that removes heads is a removal of many heads

Whatever heads the callback of a version walk takes out and whatever it returns: the walk ends, it
has handed out stored heads only, and the table that is left holds what it held but for the removed
heads, each of which was handed to `rtt_rmfree` once. A removal may send the walk over a subtree
again, but it makes the tree smaller, and in between the walk is a tour. What the walk returns is a
head of the tree or `NULL` unless the call that ends it removes its head.
-/

namespace OpxCommonUtils.Radix

open Tree Trie LinkTree RtTable

/-- The heads that a list of calls removed. -/
def removedBy (calls : List (Ptr × Bool)) : List Ptr := (calls.filter Prod.snd).map Prod.fst

@[simp] theorem removedBy_nil : removedBy [] = [] := rfl

theorem mem_removedBy {calls : List (Ptr × Bool)} {rth : Ptr} :
    rth ∈ removedBy calls ↔ (rth, true) ∈ calls := by
  simp [removedBy]

/-- The head is stored and has not been removed, and its version is in the range. -/
def HandedOut (rtt : RtTable) (minVer maxVer : Nat) (rth : Ptr) : Prop :=
  (∃ K, Has rtt K rth false) ∧ minVer ≤ (rtt.heads rth).rthVersion ∧
    (rtt.heads rth).rthVersion ≤ maxVer

/-- The last call ends the walk, by what the callback returns or because the count is used up, and
removes its head. -/
def EndsByRemoval (user : Callback) (limit : Nat) (calls : List (Ptr × Bool)) : Prop :=
  ∃ past rth, calls = past ++ [(rth, true)] ∧ ((user past rth).2 ≠ 0 ∨ calls.length = limit)

/-- The walk returns `NULL` or a head of the tree. -/
def Answered (answer : Exec Ptr) (rtt : RtTable) : Prop :=
  ∃ rth, answer = .ok rth ∧ (rth = NULL ∨ ∃ rn, HeadOf rtt rn rth)

/-- The calls that are left are those of the limit that there have not been. -/
def CallsLeft (limit : Nat) (past : List (Ptr × Bool)) (s : TableState) : Prop :=
  match s.control with
  | .loop w => w.lcnt = 0 ∨ w.lcnt + past.length = limit
  | .callback w => w.lcnt + past.length + 1 = limit
  | .outside | .climb .. => True

/-- The walk ends: what it has handed out and removed since `s`, and what it returns. -/
def Finishes (user : Callback) (minVer maxVer fuel : Nat) (past : List (Ptr × Bool))
    (s : TableState) : Prop :=
  ∃ new freed answer rtt' t', s.runWith user fuel past = .ok ⟨past ++ new, answer, rtt'⟩ ∧
    WalkOk ⟨rtt', .outside⟩ t' ∧ Removes s.rtt rtt' (removedBy new) freed ∧
    (∀ call ∈ new, HandedOut s.rtt minVer maxVer call.1) ∧
    (new.Pairwise fun call later => call.2 = true → later.1 ≠ call.1) ∧
    ∀ limit, CallsLeft limit past s → ReturnOk s → ¬ EndsByRemoval user limit (past ++ new) →
      Answered answer rtt'

section
variable {user : Callback} {minVer maxVer fuel : Nat} {past : List (Ptr × Bool)}
  {s s' : TableState}

/-- What is handed out later was there, and has not been removed. -/
theorem HandedOut.of_removes {a b : RtTable} {gone freed : List Ptr} {rth : Ptr}
    (hab : Removes a b gone freed) (h : HandedOut b minVer maxVer rth) :
    HandedOut a minVer maxVer rth ∧ rth ∉ gone := by
  obtain ⟨⟨K, hK⟩, hmin, hmax⟩ := h
  rw [hab.version] at hmin hmax
  obtain ⟨hlive, hnot⟩ := (hab.live K rth).mp hK
  exact ⟨⟨⟨K, hlive⟩, hmin, hmax⟩, hnot⟩

theorem runWith_round (henabled : s.enabled .round = true) (hstep : s.exec .round = .ok s') :
    s.runWith user (fuel + 1) past = if s'.control = .outside then .ok ⟨past, s.returned s', s'.rtt⟩
      else s'.runWith user fuel past := by
  obtain ⟨rtt, control⟩ := s
  cases control with
  | outside | callback _ => cases henabled
  | loop w => rw [TableState.runWith, hstep, exec_bind_ok]; rfl
  | climb w y => rw [TableState.runWith, hstep, exec_bind_ok]; rfl

/-- A walk that stops has no calls left. -/
theorem CallsLeft.of_stopped {limit : Nat}
    (h : s.control = .outside ∨ ∃ w y, s.control = .climb w y) : CallsLeft limit past s := by
  unfold CallsLeft
  rcases h with hout | ⟨w, y, hclimb⟩
  · rw [hout]
    trivial
  · rw [hclimb]
    trivial

/-- Rounds count the calls. -/
theorem CallsLeft.round {limit : Nat} (h : CallsLeft limit past s)
    (henabled : s.enabled .round = true) (hstep : s.exec .round = .ok s') :
    CallsLeft limit past s' := by
  obtain ⟨rtt, control⟩ := s
  cases control with
  | outside | callback _ => cases henabled
  | climb w y => exact .of_stopped (VersionWalk.climbRound_climbing s' hstep)
  | loop w =>
    by_cases hcnt : w.lcnt = 0
    · exact .of_stopped (VersionWalk.loopRound_stopped hcnt s' hstep)
    · have hleft : w.lcnt + past.length = limit := h.resolve_left hcnt
      have hnext := VersionWalk.loopRound_lcnt hcnt s' hstep
      dsimp only at hnext
      unfold CallsLeft
      cases hcontrol : s'.control with
      | outside | climb _ _ => trivial
      | loop w' =>
        rw [hcontrol] at hnext
        dsimp only at hnext ⊢
        omega
      | callback w' =>
        rw [hcontrol] at hnext
        dsimp only at hnext ⊢
        omega

/-- A round takes nothing away from what makes the walk safe. -/
theorem ReturnOk.round (h : ReturnOk s) (henabled : s.enabled .round = true)
    (hstep : s.exec .round = .ok s') : ReturnOk s' := by
  refine h.step (allowed_round s) ?_ (step_of_exec henabled hstep)
  obtain ⟨rtt, control⟩ := s
  cases control <;> exact id

/-- A round that removes nothing comes before the rest of the walk. -/
theorem Finishes.round {freed : List Ptr} (henabled : s.enabled .round = true)
    (hout : s'.control ≠ .outside) (hstep : s.exec .round = .ok s')
    (hrem : Removes s.rtt s'.rtt [] freed) (h : Finishes user minVer maxVer fuel past s') :
    Finishes user minVer maxVer (fuel + 1) past s := by
  obtain ⟨new, freed', answer, rtt', t', hrun, hwalk, hrem', hcalls, honce, hanswer⟩ := h
  refine ⟨new, freed ++ freed', answer, rtt', t', ?_, hwalk, hrem.trans hrem' ?_,
    fun call hcall => ((hcalls call hcall).of_removes hrem).1, honce,
    fun limit hcount hok => hanswer limit (hcount.round henabled hstep) (hok.round henabled hstep)⟩
  · rw [runWith_round henabled hstep, if_neg hout, hrun]
  · intro rth hrth
    obtain ⟨K, hK⟩ := (hcalls _ (mem_removedBy.mp hrth)).1
    exact ⟨K, false, hK⟩

/-- The last round. -/
theorem Finishes.last {rtt' : RtTable} {t' : Tree RtVal} {freed : List Ptr}
    (henabled : s.enabled .round = true) (hstep : s.exec .round = .ok ⟨rtt', .outside⟩)
    (hrem : Removes s.rtt rtt' [] freed) (h : WalkOk ⟨rtt', .outside⟩ t') :
    Finishes user minVer maxVer (fuel + 1) past s := by
  refine ⟨[], freed, s.returned ⟨rtt', .outside⟩, rtt', t', ?_, h, hrem, by simp,
    List.Pairwise.nil, fun limit _ hok _ => ?_⟩
  · rw [runWith_round henabled hstep, if_pos rfl, List.append_nil]
  · obtain ⟨s', hs', hreturns⟩ := hok.walkSafe.round henabled
    obtain rfl := Except.ok.inj (hstep.symm.trans hs')
    exact hreturns rfl

end

/-! ## The climb after the loop -/

section
variable {rtt : RtTable} {t : Tree RtVal} {c : List (Frame RtVal)} {p : Ptr} {v : RtVal}
  {l r : Tree RtVal}

/-- A state of known shape, reached by a step. -/
theorem WalkOk.of_kept {s' : TableState} {t' : Tree RtVal} {gone fresh : Ptr → Prop}
    (h : Kept t gone fresh s') (hs : Shape s'.rtt t') : WalkOk s' t' := by
  obtain ⟨t₁, hwalk, -⟩ := h
  rwa [holds_unique hs.holds hwalk.shape.holds]

end

/-! ## The loop -/

/-- The walk is in its loop, at the place `x` of a tour; it comes to no removed head. -/
structure Looping (minVer maxVer : Nat) (rtt : RtTable) (w : VersionWalk) (t : Tree RtVal)
    (x : Place RtVal) : Prop where
  walk : WalkOk ⟨rtt, .loop w⟩ t
  place : VersionWalk.AtPlace t w x
  minVer : w.minVer = minVer
  maxVer : w.maxVer = maxVer
  rmfree : rtt.rttRmfree = true
  fresh : x.heading = .down → x.val.rth ≠ NULL → x.val.marked = false

/-- Rounds enough for the rest of a tour and for a tour after each removal. -/
def budget (B : Nat) (t : Tree RtVal) (x : Place RtVal) : Nat :=
  t.size * (6 * B + 8) + 2 * x.rounds + 2 * B + 6

/-- So many rounds take every walk to its end that needs no more. -/
def EndsWithin (user : Callback) (minVer maxVer B fuel : Nat) : Prop :=
  ∀ {past : List (Ptr × Bool)} {rtt : RtTable} {w : VersionWalk} {t : Tree RtVal}
    {x : Place RtVal}, Looping minVer maxVer rtt w t x → t.size ≤ B → budget B t x ≤ fuel →
    Finishes user minVer maxVer fuel past ⟨rtt, .loop w⟩

section
variable {user : Callback} {minVer maxVer B fuel : Nat} {past : List (Ptr × Bool)}
  {rtt : RtTable} {w : VersionWalk} {t : Tree RtVal} {x : Place RtVal}

/-- Below the walker no head is marked. -/
theorem MarksAbove.below {c : List (Frame RtVal)} {p : Ptr} {v : RtVal} {l r : Tree RtVal}
    (hmarks : MarksAbove c (.node p v l r)) (hnd : (plug c (.node p v l r)).ptrs.Nodup)
    {y : Ptr × RtVal} (hy : y ∈ l.pre ++ r.pre) (h0 : y.2.rth ≠ NULL) : y.2.marked = false := by
  obtain ⟨hsub, -, hdisj⟩ := (nodup_plug _ _).mp hnd
  have hbelow : y.1 ∈ l.ptrs ++ r.ptrs := by
    rw [← map_fst_pre, ← map_fst_pre, ← List.map_append]
    exact List.mem_map_of_mem hy
  have hin : y ∈ (plug c (.node p v l r)).pre := by
    rw [mem_pre_plug]
    exact .inl (List.mem_cons_of_mem _ hy)
  by_contra hm
  rcases hmarks y hin h0 (by simpa using hm) with hself | ⟨f, hf, hfy⟩
  · rw [root_node] at hself
    exact (List.nodup_cons.mp hsub).1 (hself ▸ hbelow)
  · have hctx : y.1 ∈ Ctx.ptrs c := by
      rw [← hfy]
      exact List.mem_flatMap.mpr ⟨f, hf, List.mem_cons_self⟩
    exact hdisj (List.mem_cons_of_mem _ hbelow) hctx

/-- A round of the loop that leaves the table as it is. -/
theorem Looping.moves (h : Looping minVer maxVer rtt w t x) (hB : t.size ≤ B) {w' : VersionWalk}
    {y : Place RtVal} (hround : VersionWalk.loopRound rtt w = .ok ⟨rtt, .loop w'⟩)
    (hat : VersionWalk.AtPlace t w' y) (hmin : w'.minVer = minVer) (hmax : w'.maxVer = maxVer)
    (hfresh : y.heading = .down → y.val.rth ≠ NULL → y.val.marked = false)
    (hlt : y.rounds < x.rounds) (hfuel : budget B t x ≤ fuel + 1)
    (ih : EndsWithin user minVer maxVer B fuel) :
    Finishes user minVer maxVer (fuel + 1) past ⟨rtt, .loop w⟩ := by
  have hwalk := WalkOk.of_kept (VersionWalk.loopRound_ok h.walk _ hround).1 h.walk.shape
  have hless : budget B t y ≤ fuel := by
    rw [budget] at hfuel ⊢
    omega
  exact .round rfl (by simp) hround (.refl rtt)
    (ih ⟨hwalk, hat, hmin, hmax, h.rmfree, hfresh⟩ hB hless)

end

/-! ## Result -/

section
variable {rtt : RtTable} {t : Tree RtVal}

end

end OpxCommonUtils.Radix
