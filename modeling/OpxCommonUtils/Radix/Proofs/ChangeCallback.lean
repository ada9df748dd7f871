import OpxCommonUtils.Radix.ChangeCallback
import OpxCommonUtils.Radix.Proofs.ChangeList

/-!
# Where a refused head leaves the marker

A callback that refuses its head by a negative result gets the marker put back in front of that
head, wherever the head is by then. If the callback has appended the head, this is the end of the
list, and the heads in between are skipped.
-/

namespace OpxCommonUtils.Radix

open RtTable

/-- A change list: different items, none at `NULL`, and the heads among them know that they are on
the list. -/
structure ListOk (rtt : RtTable) : Prop where
  nodup : rtt.rttClhead.Nodup
  null : NULL ∉ rtt.rttClhead
  incl : ∀ x ∈ rtt.rttClhead, (rtt.heads x).isdummy = false → (rtt.heads x).incl = true

/-- The flags of all items are kept, but for heads that come onto the list. -/
structure KeepsFlags (heads heads' : Ptr → RtHead) : Prop where
  isdummy : ∀ x, (heads' x).isdummy = (heads x).isdummy
  incl : ∀ x, (heads x).incl = true → (heads' x).incl = true

namespace KeepsFlags

theorem refl (heads : Ptr → RtHead) : KeepsFlags heads heads := ⟨fun _ => rfl, fun _ h => h⟩

theorem trans {a b c : Ptr → RtHead} (hab : KeepsFlags a b) (hbc : KeepsFlags b c) :
    KeepsFlags a c :=
  ⟨fun x => (hbc.isdummy x).trans (hab.isdummy x), fun x h => hbc.incl x (hab.incl x h)⟩

theorem setVersion (rtt : RtTable) (rth : Ptr) (v : Nat) :
    KeepsFlags rtt.heads (rtt.setVersion rth v).heads := by
  have hflags : ∀ x, ((rtt.setVersion rth v).heads x).rdclFlags = (rtt.heads x).rdclFlags := by
    intro x
    rw [RtTable.setVersion, heads_setHead]
    split
    · rename_i hx
      rw [hx]
    · rfl
  constructor
  · intro x
    rw [RtHead.isdummy, RtHead.isdummy, hflags]
  · intro x hx
    rw [RtHead.incl, hflags]
    exact hx

theorem setIncl (rtt : RtTable) (rth : Ptr) :
    KeepsFlags rtt.heads (rtt.mapFlags rth (· ||| RDCL_INCL)).heads := by
  constructor
  · intro x
    rw [mapFlags, heads_setHead]
    split
    · rename_i hx
      rw [hx, RtHead.isdummy, RtHead.isdummy, or_incl_dummy]
    · rfl
  · intro x hx
    rw [mapFlags, heads_setHead]
    split
    · rw [RtHead.incl, or_and_self_flag]
      decide
    · exact hx

theorem live_eq {heads heads' : Ptr → RtHead} (h : KeepsFlags heads heads') (l : List Ptr) :
    live heads' l = live heads l := by
  simp only [live, h.isdummy]

end KeepsFlags

/-- A head of the list moves to its back. -/
theorem append_listed {rtt : RtTable} {rth : Ptr} {pre post : List Ptr}
    (hlist : rtt.rttClhead = pre ++ rth :: post) (hpre : rth ∉ pre)
    (hincl : (rtt.heads rth).incl = true) :
    Settles (rtt.stdRadicalAppendtochangelist rth) fun res =>
      res.2.rttClhead = pre ++ post ++ [rth] ∧ KeepsFlags rtt.heads res.2.heads := by
  have hread : Settles (rtt.readHead rth) fun _ => True := by
    rw [readHead]
    split <;> simp [Settles]
  have hunlist : rtt.unlistHead rth = .ok (rtt.relink (pre ++ post)) := by
    have hlinked : rtt.islinked rth = true := by simp [islinked, hlist]
    rw [unlistHead, if_pos hincl, hlinked, assertThat_true, exec_bind_ok, hlist,
      erase_append_cons post hpre]
    rfl
  have hkeep : ∀ v, KeepsFlags rtt.heads
      ((rtt.mapFlags rth (· ||| RDCL_INCL)).setVersion rth v).heads :=
    fun v => (KeepsFlags.setIncl rtt rth).trans (.setVersion _ rth v)
  unfold stdRadicalAppendtochangelist
  apply hread.bind
  intro hd _
  apply (settles_assertThat _).bind
  intro _ _
  rw [hunlist, exec_bind_ok]
  apply settles_ok.mpr
  dsimp only
  split
  · exact ⟨rfl, hkeep _⟩
  · exact ⟨rfl, hkeep _⟩

/-- However often it does: the list is the same from the first time on. -/
theorem appendTimes_spec (n : Nat) : ∀ {rtt : RtTable} {rth : Ptr} {pre post : List Ptr},
    rtt.rttClhead = pre ++ rth :: post → rth ∉ pre ++ post → (rtt.heads rth).incl = true →
    Settles (rtt.appendTimes rth n) fun rtt' =>
      rtt'.rttClhead = (if n = 0 then pre ++ rth :: post else pre ++ post ++ [rth]) ∧
        KeepsFlags rtt.heads rtt'.heads := by
  induction n with
  | zero =>
    intro rtt rth pre post hlist hout hincl
    exact settles_ok.mpr ⟨hlist, .refl _⟩
  | succ n ih =>
    intro rtt rth pre post hlist hout hincl
    rw [RtTable.appendTimes]
    apply Settles.bind (append_listed hlist (fun h => hout (List.mem_append_left _ h)) hincl)
    rintro ⟨_, rtt₁⟩ ⟨hlist₁, hkeep₁⟩
    apply (@ih rtt₁ rth (pre ++ post) [] hlist₁ (by simpa using hout)
      (hkeep₁.incl rth hincl)).mono
    rintro rtt' ⟨hlist', hkeep'⟩
    constructor
    · rw [if_neg (Nat.succ_ne_zero n), hlist']
      split <;> simp
    · exact hkeep₁.trans hkeep'

/-- Where the marker stood when the callback was entered, and where a refusal leaves it. -/
def CallOk (rtt : RtTable) (dummy : Ptr) (w : CallbackWalked) (c : CallbackCall) : Prop :=
  ∃ pre post, c.clhead = pre ++ c.rth :: dummy :: post ∧ c.clhead.Nodup ∧
    (rtt.heads c.rth).isdummy = false ∧
    (c.reply.result < 0 → w.rtt.rttClhead =
      if c.reply.appends = 0 then pre ++ dummy :: c.rth :: post
      else pre ++ post ++ [dummy, c.rth])

/-- What a walk keeps, and what it says of its calls. -/
structure CallbackWalkOk (rtt : RtTable) (dummy : Ptr) (w : CallbackWalked) : Prop where
  flags : KeepsFlags rtt.heads w.rtt.heads
  calls : ∀ c ∈ w.calls, CallOk rtt dummy w c

section
variable {rtt rtt' : RtTable} {dummy : Ptr}

theorem CallbackWalkOk.stopped (cbretval : Int) (h : KeepsFlags rtt.heads rtt'.heads) :
    CallbackWalkOk rtt dummy ⟨cbretval, [], rtt'⟩ := ⟨h, by simp⟩

/-- The last call of a walk. -/
theorem CallbackWalkOk.last (cbretval : Int) {c : CallbackCall} (h : KeepsFlags rtt.heads rtt'.heads)
    (hc : CallOk rtt dummy ⟨cbretval, [c], rtt'⟩ c) :
    CallbackWalkOk rtt dummy ⟨cbretval, [c], rtt'⟩ := by
  refine ⟨h, ?_⟩
  intro c' hc'
  rw [List.mem_singleton.mp hc']
  exact hc

/-- A call that was not refused, and the walk from there. -/
theorem CallbackWalkOk.call {w : CallbackWalked} {c : CallbackCall}
    (h : KeepsFlags rtt.heads rtt'.heads)
    (hc : CallOk rtt dummy { w with calls := c :: w.calls } c)
    (hw : CallbackWalkOk rtt' dummy w) :
    CallbackWalkOk rtt dummy { w with calls := c :: w.calls } := by
  refine ⟨h.trans hw.flags, ?_⟩
  intro c' hc'
  rcases List.mem_cons.mp hc' with rfl | hmem
  · exact hc
  · obtain ⟨pre, post, heq, hnodup, hlive, hlist⟩ := hw.calls c' hmem
    exact ⟨pre, post, heq, hnodup, (h.isdummy c'.rth).symm.trans hlive, hlist⟩

end

/-- A list that has the items of a change list is one. -/
theorem ListOk.of_perm {rtt rtt' : RtTable} (h : ListOk rtt) (hkeep : KeepsFlags rtt.heads rtt'.heads)
    (hperm : rtt'.rttClhead.Perm rtt.rttClhead) : ListOk rtt' where
  nodup := hperm.nodup_iff.mpr h.nodup
  null hmem := h.null (hperm.mem_iff.mp hmem)
  incl x hx hlive := hkeep.incl x (h.incl x (hperm.mem_iff.mp hx) ((hkeep.isdummy x).symm.trans hlive))

/-- The list after the appends, around the marker. -/
theorem exists_around {l pre post : List Ptr} {x dummy : Ptr} {n : Nat}
    (h : l = if n = 0 then pre ++ x :: dummy :: post else pre ++ dummy :: post ++ [x])
    (hout : dummy ∉ pre ++ x :: post) :
    ∃ pre' post', l = pre' ++ dummy :: post' ∧ dummy ∉ pre' ∧
      (pre' ++ post').Perm (pre ++ x :: post) := by
  rw [List.mem_append, List.mem_cons] at hout
  by_cases hn : n = 0
  · rw [if_pos hn] at h
    refine ⟨pre ++ [x], post, by simp [h], ?_, by simp⟩
    rw [List.mem_append, List.mem_singleton]
    tauto
  · rw [if_neg hn] at h
    refine ⟨pre, post ++ [x], by simp [h], by tauto, ?_⟩
    exact List.Perm.append_left pre (List.perm_append_singleton x post)

/-- The marker is put in front of the refused head. -/
theorem refused_list {l pre post : List Ptr} {x dummy : Ptr} {n : Nat}
    (h : l = if n = 0 then pre ++ x :: dummy :: post else pre ++ dummy :: post ++ [x])
    (hout : dummy ∉ pre ++ x :: post) (hx : x ∉ pre ++ post) :
    insertBefore x dummy (l.erase dummy) =
      if n = 0 then pre ++ dummy :: x :: post else pre ++ post ++ [dummy, x] := by
  rw [List.mem_append, List.mem_cons] at hout
  have hpre : x ∉ pre := fun hmem => hx (List.mem_append_left _ hmem)
  subst h
  split
  · have herase : (pre ++ x :: dummy :: post).erase dummy = pre ++ x :: post := by
      have hdpre : dummy ∉ pre ++ [x] := by
        rw [List.mem_append, List.mem_singleton]
        tauto
      simpa using erase_append_cons post hdpre
    rw [herase, insertBefore_append_cons _ _ hpre]
  · have hdpre : dummy ∉ pre := by tauto
    have herase : (pre ++ dummy :: post ++ [x]).erase dummy = (pre ++ post) ++ x :: [] := by
      simpa using erase_append_cons (post ++ [x]) hdpre
    rw [herase, insertBefore_append_cons _ _ hx]

theorem toNat_pred {m : BitVec 32} (h : m ≠ 0) : m.toNat = (m - 1).toNat + 1 := by
  have hpos : m.toNat ≠ 0 := fun h0 => h (BitVec.eq_of_toNat_eq (by simpa using h0))
  rw [BitVec.toNat_sub_of_le (by rw [BitVec.le_def]; simp; omega)]
  simp
  omega

/-- The loop from the item in front of `post`. Each round takes an item or a call. -/
theorem callbackLoop_spec (walkFn : Nat → Ptr → ChangeReply) (dummy : Ptr) (maxVer : Nat)
    (fuel : Nat) : ∀ (rtt : RtTable) (i : Nat) (maxnodes : BitVec 32) (cbretval : Int)
      (pre post : List Ptr),
      maxnodes.toNat * (rtt.rttClhead.length + 1) + post.length < fuel →
      rtt.rttClhead = pre ++ post → ListOk rtt → dummy ∉ rtt.rttClhead → maxnodes ≠ 0 →
      Settles (callbackLoop walkFn dummy maxVer fuel rtt i maxnodes (post.headD NULL) cbretval)
        (CallbackWalkOk rtt dummy) := by
  induction fuel with
  | zero => intro _ _ _ _ _ _ hfuel; omega
  | succ fuel ih =>
    intro rtt i maxnodes cbretval pre post hfuel hlist hok hout hcount
    rw [callbackLoop]
    cases post with
    | nil =>
      rw [List.headD_nil, if_pos rfl]
      exact settles_ok.mpr (.stopped cbretval (.setVersion rtt dummy _))
    | cons x post =>
      have hnodup := hok.nodup
      rw [hlist] at hnodup hout
      obtain ⟨-, -, hdisj⟩ := List.nodup_append.mp hnodup
      have hxpre : x ∉ pre := fun h => hdisj x h x (by simp) rfl
      have hx0 : x ≠ NULL := fun h => hok.null (by simp [hlist, h])
      rw [List.headD_cons, if_neg hx0]
      by_cases hdummy : (rtt.heads x).isdummy = true
      · rw [if_pos hdummy, hlist, stdDllGetnext, after_append_cons _ hxpre]
        apply ih rtt i maxnodes cbretval (pre ++ [x]) post
        · rw [List.length_cons] at hfuel
          omega
        · simpa using hlist
        · exact hok
        · rw [hlist]
          exact hout
        · exact hcount
      · rw [if_neg hdummy]
        by_cases hnew : maxVer < (rtt.heads x).rthVersion
        · rw [if_pos hnew]
          exact settles_ok.mpr
            (.stopped cbretval (.setVersion rtt dummy _))
        · have hlive : (rtt.heads x).isdummy = false := by simpa using hdummy
          have hxout : x ∉ pre ++ post := by
            rw [List.mem_append, not_or]
            exact ⟨hxpre, (List.nodup_cons.mp (List.nodup_append.mp hnodup).2.1).1⟩
          have hxd : x ≠ dummy := fun h => hout (by simp [h])
          have hentered : (pre ++ x :: dummy :: post).Nodup := by
            have hperm : (pre ++ x :: dummy :: post).Perm (dummy :: (pre ++ x :: post)) := by
              simpa using @List.perm_middle _ dummy (pre ++ [x]) post
            exact hperm.nodup_iff.mpr (List.nodup_cons.mpr ⟨hout, hnodup⟩)
          rw [if_neg hnew, hlist, insertAfter_append_cons _ _ hxpre]
          dsimp only
          apply Settles.bind (@appendTimes_spec (walkFn i x).appends
            (rtt.relink (pre ++ x :: dummy :: post)) x pre (dummy :: post) rfl
            (by simpa [hxd] using hxout) (hok.incl x (by simp [hlist]) hlive))
          intro rtt' happended
          obtain ⟨hlist', hkeep'⟩ := happended
          rcases lt_or_ge (walkFn i x).result 0 with hneg | hpos
          · rw [if_neg (Int.not_le.mpr hneg), if_pos hneg]
            apply (settles_assertThat _).bind
            intro _ _
            refine settles_ok.mpr (.last _ hkeep' ?_)
            refine ⟨pre, post, rfl, hentered, hlive, ?_⟩
            intro _
            exact refused_list hlist' hout hxout
          · have hnot : ¬ (walkFn i x).result < 0 := Int.not_lt.mpr hpos
            have hkeep : KeepsFlags rtt.heads
                (rtt'.setVersion dummy (rtt.heads x).rthVersion).heads :=
              hkeep'.trans (.setVersion _ dummy _)
            have hcall : ∀ w, CallOk rtt dummy w
                ⟨pre ++ x :: dummy :: post, x, walkFn i x⟩ :=
              fun w => ⟨pre, post, rfl, hentered, hlive, fun hneg => absurd hneg hnot⟩
            rw [if_pos hpos, if_neg hnot]
            by_cases hzero : (walkFn i x).result = 0
            · rw [if_neg (not_not.mpr hzero)]
              by_cases hstop : maxnodes - 1 = 0
              · rw [if_pos hstop]
                exact settles_ok.mpr (.last _ hkeep (hcall _))
              · obtain ⟨pre', post', hsplit, hdpre, hperm⟩ := exists_around hlist' hout
                have hnext : stdDllGetnext rtt'.rttClhead dummy = post'.headD NULL := by
                  rw [hsplit, stdDllGetnext, after_append_cons _ hdpre]
                have herase : rtt'.rttClhead.erase dummy = pre' ++ post' := by
                  rw [hsplit, erase_append_cons _ hdpre]
                let rtt'' := (rtt'.setVersion dummy (rtt.heads x).rthVersion).relink (pre' ++ post')
                have hrest : Settles (callbackLoop walkFn dummy maxVer fuel rtt'' (i + 1)
                    (maxnodes - 1) (post'.headD NULL) (walkFn i x).result)
                    (CallbackWalkOk rtt'' dummy) := by
                  apply ih rtt'' (i + 1) (maxnodes - 1) _ pre' post' _ rfl
                  · exact hok.of_perm hkeep (hlist ▸ hperm)
                  · exact fun hmem => hout (hperm.mem_iff.mp hmem)
                  · exact hstop
                  · have hlen := hperm.length_eq
                    rw [toNat_pred hcount, Nat.add_mul, hlist] at hfuel
                    rw [show rtt''.rttClhead = pre' ++ post' from rfl, hlen]
                    rw [List.length_append] at hlen
                    simp only [List.length_append, List.length_cons] at hfuel hlen ⊢
                    omega
                rw [if_neg hstop, show (rtt'.setVersion dummy (rtt.heads x).rthVersion).rttClhead =
                  rtt'.rttClhead from rfl, hnext, herase]
                apply hrest.bind
                intro w hw
                exact settles_ok.mpr (@CallbackWalkOk.call rtt rtt'' dummy w _ hkeep (hcall _) hw)
            · rw [if_pos hzero]
              exact settles_ok.mpr (.last _ hkeep (hcall _))

/-- The walk from the marker's place. -/
theorem walkchangelistAppending_spec {rtt : RtTable} {dummy : Ptr} (hok : ListOk rtt)
    (walkFn : Nat → Ptr → ChangeReply) (maxnodes : BitVec 32) (maxVer : Nat) :
    Settles (rtt.walkchangelistAppending dummy walkFn maxnodes maxVer)
      (CallbackWalkOk rtt dummy) := by
  unfold walkchangelistAppending
  apply (settles_assertThat _).bind
  intro _ _
  apply (settles_assertThat _).bind
  intro _ _
  apply (settles_assertThat _).bind
  intro _ hlinked
  obtain ⟨pre, post, hlist⟩ := List.append_of_mem (List.contains_iff_mem.mp hlinked)
  have hnodup := hok.nodup
  rw [hlist] at hnodup
  have hperm : (pre ++ dummy :: post).Perm (dummy :: (pre ++ post)) := List.perm_middle
  obtain ⟨hout, -⟩ := List.nodup_cons.mp (hperm.nodup_iff.mp hnodup)
  have hpre : dummy ∉ pre := fun h => hout (List.mem_append_left _ h)
  dsimp only
  rw [hlist, erase_append_cons _ hpre, stdDllGetnext, after_append_cons _ hpre]
  generalize hcount : (if maxnodes = 0 then 0xffffffff else maxnodes) = count
  have hne : count ≠ 0 := by
    rw [← hcount]
    split
    · decide
    · assumption
  have hok' : ListOk (rtt.relink (pre ++ post)) := by
    have hsub : (pre ++ post).Sublist rtt.rttClhead := by
      rw [hlist]
      exact (List.sublist_cons_self dummy post).append_left pre
    exact ⟨hok.nodup.sublist hsub, fun h => hok.null (hsub.subset h),
      fun x hx hlive => hok.incl x (hsub.subset hx) hlive⟩
  refine (callbackLoop_spec walkFn dummy maxVer _ (rtt.relink (pre ++ post)) 0 count 0 pre post ?_
    rfl hok' hout hne).mono fun w hw => ⟨hw.flags, hw.calls⟩
  have hmul : count.toNat * ((pre ++ post).length + 1) ≤
      count.toNat * ((pre ++ dummy :: post).length + 1) :=
    Nat.mul_le_mul_left _ (by simp)
  rw [show (rtt.relink (pre ++ post)).rttClhead = pre ++ post from rfl, Nat.add_mul]
  simp only [List.length_append, List.length_cons] at hmul ⊢
  omega

/-! ## Result -/

/-- Behind the marker stand the head of the call and the heads that stood behind it when the
callback was entered. -/
def KeepsBehind (rtt : RtTable) (dummy : Ptr) (w : CallbackWalked) (c : CallbackCall) : Prop :=
  ∀ x, x ∈ live w.rtt.heads (after dummy w.rtt.rttClhead) ↔
    x = c.rth ∨ x ∈ live rtt.heads (after c.rth c.clhead)

theorem CallOk.keepsBehind_iff {rtt : RtTable} {dummy : Ptr} {w : CallbackWalked}
    {c : CallbackCall} (hc : CallOk rtt dummy w c) (hflags : KeepsFlags rtt.heads w.rtt.heads)
    (hdummy : (rtt.heads dummy).isdummy = true) (hneg : c.reply.result < 0) :
    KeepsBehind rtt dummy w c ↔
      c.reply.appends = 0 ∨ live rtt.heads (after c.rth c.clhead) = [] := by
  obtain ⟨pre, post, hlist, hnodup, hlive, hleft⟩ := hc
  rw [hlist] at hnodup
  obtain ⟨-, hnodup', hdisj⟩ := List.nodup_append.mp hnodup
  obtain ⟨hx, hnodup''⟩ := List.nodup_cons.mp hnodup'
  obtain ⟨hd, -⟩ := List.nodup_cons.mp hnodup''
  have hxpre : c.rth ∉ pre := fun h => hdisj _ h _ (by simp) rfl
  have hdpre : dummy ∉ pre := fun h => hdisj _ h dummy (by simp) rfl
  have hbehind : live rtt.heads (after c.rth c.clhead) = live rtt.heads post := by
    rw [hlist, after_append_cons _ hxpre, live_cons_dummy hdummy]
  unfold KeepsBehind
  rw [hbehind, hflags.live_eq, hleft hneg]
  by_cases hn : c.reply.appends = 0
  · rw [if_pos hn, after_append_cons _ hdpre, live_cons_head hlive]
    simp [hn]
  · have hafter : after dummy (pre ++ post ++ [dummy, c.rth]) = [c.rth] := by
      apply after_append_cons
      rw [List.mem_append, not_or]
      exact ⟨hdpre, hd⟩
    rw [if_neg hn, hafter, live_cons_head hlive, or_iff_right hn]
    constructor
    · intro hsame
      apply List.eq_nil_iff_forall_not_mem.mpr
      intro x hxlive
      have heq := (hsame x).mpr (.inr hxlive)
      rw [show live rtt.heads [] = [] from rfl, List.mem_singleton] at heq
      exact hx (List.mem_cons_of_mem _ (heq ▸ (List.mem_filter.mp hxlive).1))
    · intro hnil x
      rw [hnil]
      simp [live]

/-- Every walk ends, and if the callback refuses a head the walk keeps it and the heads behind it
for the next time exactly if the callback has not appended it, or no head stood behind it. -/
theorem refused_walk_iff {rtt : RtTable} (hok : ListOk rtt) (dummy : Ptr)
    (walkFn : Nat → Ptr → ChangeReply) (maxnodes : BitVec 32) (maxVer : Nat) :
    rtt.walkchangelistAppending dummy walkFn maxnodes maxVer ≠ .error .diverges ∧
    ∀ w, rtt.walkchangelistAppending dummy walkFn maxnodes maxVer = .ok w →
      ((∀ c ∈ w.calls, c.reply.result < 0 → KeepsBehind rtt dummy w c) ↔
        ∀ c ∈ w.calls, c.reply.result < 0 →
          c.reply.appends = 0 ∨ live rtt.heads (after c.rth c.clhead) = []) := by
  obtain ⟨hends, hspec⟩ := @walkchangelistAppending_spec rtt dummy hok walkFn maxnodes maxVer
  refine ⟨hends, ?_⟩
  intro w hw
  have hdummy : (rtt.heads dummy).isdummy = true := by
    unfold walkchangelistAppending at hw
    obtain ⟨_, -, hw⟩ := exec_bind_eq_ok.mp hw
    obtain ⟨_, hassert, -⟩ := exec_bind_eq_ok.mp hw
    exact ensures_assertThat _ _ hassert
  obtain ⟨hflags, hcalls⟩ := hspec w hw
  constructor
  · intro hkeeps c hc hneg
    exact ((hcalls c hc).keepsBehind_iff hflags hdummy hneg).mp (hkeeps c hc hneg)
  · intro hcond c hc hneg
    exact ((hcalls c hc).keepsBehind_iff hflags hdummy hneg).mpr (hcond c hc hneg)

/-- The marker 1 in front of the heads 8 and 9. -/
def sampleRefused : RtTable :=
  { stdRadixCreate 32 true fun p =>
      { (default : RtHead) with
        rthRtn := 5
        rdclFlags := if p = 1 then RDCL_DUMMY else RDCL_INCL } with
    rttClhead := [1, 8, 9] }

theorem sampleRefused_ok : ListOk sampleRefused := ⟨by decide, by decide, by decide⟩

/-- The callback refuses the head 8 without appending it. -/
theorem refused_walk_iff_sample : ∃ w,
    sampleRefused.walkchangelistAppending 1 (fun _ _ => ⟨0, -1⟩) 1 9 = .ok w ∧ w.calls ≠ [] ∧
      ∀ c ∈ w.calls, c.reply.result < 0 → KeepsBehind sampleRefused 1 w c := by
  have hrun : (sampleRefused.walkchangelistAppending 1 (fun _ _ => ⟨0, -1⟩) 1 9).map
      CallbackWalked.calls = .ok [⟨[8, 1, 9], 8, ⟨0, -1⟩⟩] := by rfl
  cases hw : sampleRefused.walkchangelistAppending 1 (fun _ _ => ⟨0, -1⟩) 1 9 with
  | error e =>
    rw [hw] at hrun
    cases hrun
  | ok w =>
    rw [hw] at hrun
    have hcalls : w.calls = [⟨[8, 1, 9], 8, ⟨0, -1⟩⟩] := Except.ok.inj hrun
    refine ⟨w, rfl, by rw [hcalls]; simp, ?_⟩
    apply ((refused_walk_iff sampleRefused_ok 1 (fun _ _ => ⟨0, -1⟩) 1 9).2 w hw).mpr
    intro c hc _
    rw [hcalls, List.mem_singleton] at hc
    exact .inl (by rw [hc])

/-- The callback appends the head 8 and refuses it: the head 9 is not behind the marker any more. -/
theorem refused_walk_skips : ∃ w,
    sampleRefused.walkchangelistAppending 1 (fun _ _ => ⟨1, -1⟩) 1 9 = .ok w ∧
      ∃ c ∈ w.calls, c.reply.result < 0 ∧ ¬ KeepsBehind sampleRefused 1 w c := by
  have hrun : (sampleRefused.walkchangelistAppending 1 (fun _ _ => ⟨1, -1⟩) 1 9).map
      (fun w => (w.calls, live w.rtt.heads (after 1 w.rtt.rttClhead))) =
        .ok ([⟨[8, 1, 9], 8, ⟨1, -1⟩⟩], [8]) := by rfl
  cases hw : sampleRefused.walkchangelistAppending 1 (fun _ _ => ⟨1, -1⟩) 1 9 with
  | error e =>
    rw [hw] at hrun
    cases hrun
  | ok w =>
    rw [hw] at hrun
    obtain ⟨hcalls, hbehind⟩ := Prod.mk.inj (Except.ok.inj hrun)
    refine ⟨w, rfl, ⟨[8, 1, 9], 8, ⟨1, -1⟩⟩, by rw [hcalls]; simp, by decide, ?_⟩
    intro hkeeps
    have hnine := (hkeeps 9).mpr (.inr (by decide))
    rw [hbehind] at hnine
    exact absurd hnine (by decide)

end OpxCommonUtils.Radix
