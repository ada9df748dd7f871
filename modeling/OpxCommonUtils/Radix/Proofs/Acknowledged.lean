import OpxCommonUtils.Radix.Proofs.ChangeList

/-!
# Every change is acknowledged once per marker

Each call keeps `ChangesOk`, so it holds in every state of every run; a walk from such a state
hands the callback what its marker has not acknowledged, and nothing else.
-/

namespace OpxCommonUtils.Radix

open RtTable

variable {marker : Ptr → Bool} {s : ChangeState}

/-! ## The operations of the tree -/

theorem ChangesOk.insert (h : ChangesOk marker s) (A : Malloc RtNode) (copyOk : Bool) {rth : Ptr}
    (bitlen : Nat) (hrth : marker rth = false) (hout : rth ∉ s.rtt.rttClhead) :
    Ensures (s.rtt.stdRadixInsert A copyOk rth bitlen)
      fun r => ChangesOk marker { s with rtt := r.2 } := by
  unfold stdRadixInsert
  refine .bind (s.rtt.prepareKey_same copyOk rth) ?_
  rintro ⟨ok, rtt⟩ hsame
  have hprep : ChangesOk marker { s with rtt := rtt } := h.same hsame
  have hout' : rth ∉ rtt.rttClhead := by rwa [hsame.clhead]
  have hclear : Ensures (rtt.debugStart rth) fun rtt' =>
      ChangesOk marker { s with rtt := rtt' } := by
    refine (rtt.debugStart_other rth).mono ?_
    rintro rtt' ⟨hlist, hversion, hheads, hflags⟩
    refine hprep.unlink (p := rth) ?_ hversion hheads fun _ => ?_
    · exact hlist.trans (List.erase_of_not_mem hout').symm
    · rcases hflags with hflags | hflags
      · have hincl := mt (hprep.incl rth hrth).mp hout'
        rw [RtHead.isdummy, RtHead.incl, hflags]
        exact ⟨hprep.plain rth hrth, by simpa [RtHead.incl] using hincl⟩
      · rw [RtHead.isdummy, RtHead.incl, hflags]
        decide
  dsimp only
  split
  · exact ensures_ok.mpr hprep
  refine .bind hclear fun rtt₁ hdebug => ?_
  split
  · exact ensures_ok.mpr hdebug
  · refine (rtt₁.insertKey_same A rth bitlen).mono ?_
    rintro r ⟨_, hr, -⟩
    exact hdebug.same hr

theorem ChangesOk.remove (h : ChangesOk marker s) {rth : Ptr} (hrth : marker rth = false) :
    Ensures (s.rtt.stdRadixRemove rth) fun r => ChangesOk marker { s with rtt := r } := by
  have hcount : SameChanges s.rtt { s.rtt with rttNremoves := s.rtt.rttNremoves + 1 } [] :=
    .of_eq rfl rfl rfl rfl
  unfold stdRadixRemove
  refine .bindAny fun hd => .bindAny fun n => ?_
  split
  · refine .bindAny fun nodes => .bindAny fun _ => ensures_ok.mpr ?_
    exact h.same (hcount.then_eq rfl rfl rfl rfl)
  refine .bind (removeNode_same _ hd.rthRtn .walkup) ?_
  rintro ⟨_, _, rtt⟩ ⟨_, hsame, -⟩
  have hrtt : ChangesOk marker { s with rtt := rtt } := h.same (hcount.trans hsame)
  refine ensures_ok.mpr ?_
  unfold unlinkChange
  split
  · refine hrtt.unlink (p := rth) rfl rfl (fun x hx => if_neg hx) fun _ => ?_
    have hplain := hrtt.plain rth hrth
    simp only [setHead, if_true, RtHead.isdummy, RtHead.incl, and_not_incl_dummy,
      and_not_incl_incl] at hplain ⊢
    exact ⟨hplain, by decide⟩
  · exact hrtt

/-! ## The operations of the change list -/

theorem ChangesOk.append (h : ChangesOk marker s) {rth : Ptr} (hrth : marker rth = false)
    (hwrap : s.rtt.rttVersion + 1 < 2 ^ 64) :
    Ensures (s.rtt.stdRadicalAppendtochangelist rth)
      fun r => ChangesOk marker { s with rtt := r.2 } := by
  unfold stdRadicalAppendtochangelist
  refine .bind (P := fun hd => rth ≠ NULL ∧ hd = s.rtt.heads rth) ?_ ?_
  · unfold readHead
    split
    · exact ensures_error
    · rename_i h0
      exact ensures_ok.mpr ⟨h0, rfl⟩
  rintro _ ⟨h0, rfl⟩
  let off := (s.rtt.mapFlags rth (· &&& ~~~RDCL_INCL)).relink (s.rtt.rttClhead.erase rth)
  have hoff : ChangesOk marker { s with rtt := off } := by
    refine h.unlink (p := rth) rfl rfl (fun x hx => if_neg hx) fun _ => ?_
    have hplain := h.plain rth hrth
    simp only [off, relink, mapFlags, setHead, if_true, RtHead.isdummy, RtHead.incl,
      and_not_incl_dummy, and_not_incl_incl] at hplain ⊢
    exact ⟨hplain, by decide⟩
  have hout : rth ∉ off.rttClhead := fun hmem => (h.nodup.mem_erase_iff.mp hmem).1 rfl
  have hversion : (s.rtt.rttVersion + 1) % 2 ^ 64 = s.rtt.rttVersion + 1 := Nat.mod_eq_of_lt hwrap
  refine .bindAny fun _ => ?_
  refine .bind (P := fun rtt => rtt = s.rtt.relink (s.rtt.rttClhead.erase rth)) ?_ ?_
  · unfold unlistHead
    split
    · exact .bindAny fun _ => ensures_ok.mpr rfl
    · rename_i hincl
      have hnot : rth ∉ s.rtt.rttClhead := mt (h.incl rth hrth).mpr hincl
      exact ensures_ok.mpr (by rw [List.erase_of_not_mem hnot]; rfl)
  rintro _ rfl
  refine ensures_ok.mpr ?_
  have hne : (s.rtt.rttVersion + 1) % 2 ^ 64 ≠ 0 := by omega
  split
  · rename_i hzero
    exact absurd hzero hne
  refine hoff.push hrth h0 hout rfl hversion (fun x hx => ?_) ?_ ?_ ?_
  · simp [off, setVersion, mapFlags, relink, setHead, hx]
  · simp [setVersion, mapFlags, relink, setHead]
  · have hplain := h.plain rth hrth
    simp only [setVersion, mapFlags, relink, setHead, if_true, RtHead.isdummy,
      or_incl_dummy] at hplain ⊢
    exact hplain
  · simp only [setVersion, mapFlags, relink, setHead, if_true, RtHead.incl, or_and_self_flag]
    decide

theorem ChangesOk.walkdestructor (h : ChangesOk marker s) {m : Ptr} (hm : marker m = true) :
    Ensures (s.rtt.stdRadicalWalkdestructor m)
      fun r => ChangesOk marker { s with rtt := r } := by
  unfold stdRadicalWalkdestructor
  refine .bindAny fun _ => ensures_ok.mpr ?_
  have hheads : ∀ x, x ≠ m → (s.rtt.mapFlags m (· &&& ~~~RDCL_DUMMY)).heads x = s.rtt.heads x :=
    fun x hx => if_neg hx
  have hno : ¬marker m = false := by simp [hm]
  split
  · exact h.unlink (p := m) rfl rfl hheads fun hp => absurd hp hno
  · rename_i hout
    have hout' : m ∉ s.rtt.rttClhead := by simpa [islinked, mapFlags, setHead] using hout
    exact h.unlink (p := m) (List.erase_of_not_mem hout').symm rfl hheads fun hp => absurd hp hno

/-- A marker off the list leaves the others as they are. -/
theorem ChangesOk.lift (h : ChangesOk marker s) {m : Ptr} (hm : marker m = true) :
    ChangesOk marker { s with rtt := s.rtt.relink (s.rtt.rttClhead.erase m) } :=
  h.unlink rfl rfl (fun _ _ => rfl) fun hp => by rw [hm] at hp; cases hp

theorem ChangesOk.not_mem_erase (h : ChangesOk marker s) (m : Ptr) :
    m ∉ s.rtt.rttClhead.erase m := fun hmem => (h.nodup.mem_erase_iff.mp hmem).1 rfl

theorem ChangesOk.walkconstructor (h : ChangesOk marker s) {m : Ptr} (hm : marker m = true) :
    Ensures (s.rtt.stdRadicalWalkconstructor m)
      fun r => ChangesOk marker { s.setAcked m [] with rtt := r } := by
  unfold stdRadicalWalkconstructor
  refine .bind (ensures_assertThat _) fun _ h0 => ensures_ok.mpr ?_
  rw [bne_iff_ne] at h0
  have hsame : (if (s.rtt.heads m).isdummy && s.rtt.islinked m then
      s.rtt.relink (s.rtt.rttClhead.erase m) else s.rtt) =
      s.rtt.relink (s.rtt.rttClhead.erase m) := by
    split
    · rfl
    · rename_i hnot
      have hout : m ∉ s.rtt.rttClhead := fun hmem =>
        hnot (by simp [h.dummy m hmem hm, islinked, hmem])
      rw [List.erase_of_not_mem hout]
      rfl
  dsimp only
  rw [hsame]
  refine (h.lift hm).place _ _ hm h0 (List.nil_append _).symm (h.not_mem_erase m) rfl rfl
    (fun x hx => ?_) ?_ List.nodup_nil (by simp) fun x hx => ?_
  · simp [setVersion, mapFlags, relink, setHead, hx]
  · simp only [setVersion, mapFlags, relink, setHead, if_true, RtHead.isdummy, or_and_self_flag]
    decide
  · exact iff_of_true (mem_changes.mp hx).1 List.not_mem_nil

theorem ChangesOk.walkconstructorafter (h : ChangesOk marker s) {behind m : Ptr}
    (hbehind : marker behind = true) (hm : marker m = true) (hne : behind ≠ m) :
    Ensures (s.rtt.stdRadicalWalkconstructorafter behind m)
      fun r => ChangesOk marker { s.setAcked m (s.acked behind) with rtt := r } := by
  unfold stdRadicalWalkconstructorafter
  refine .bind (ensures_assertThat _) fun _ h0 => .bindAny fun _ => .bindAny fun _ => ?_
  refine .bind (ensures_assertThat _) fun _ hlinked => ensures_ok.mpr ?_
  rw [bne_iff_ne] at h0
  rw [islinked, List.contains_iff_mem] at hlinked
  have hsame : (if s.rtt.islinked m then s.rtt.relink (s.rtt.rttClhead.erase m) else s.rtt) =
      s.rtt.relink (s.rtt.rttClhead.erase m) := by
    split
    · rfl
    · rename_i hnot
      have hout : m ∉ s.rtt.rttClhead := by simpa [islinked] using hnot
      rw [List.erase_of_not_mem hout]
      rfl
  have hlift := h.lift hm
  have hmem : behind ∈ s.rtt.rttClhead.erase m := h.nodup.mem_erase_iff.mpr ⟨hne, hlinked⟩
  obtain ⟨pre, post, hsplit⟩ := List.append_of_mem hmem
  have hpre : behind ∉ pre := by
    have hnodup := hlift.nodup
    dsimp only [relink] at hnodup
    rw [hsplit, List.nodup_middle] at hnodup
    exact fun hp => (List.nodup_cons.mp hnodup).1 (List.mem_append_left _ hp)
  dsimp only
  rw [hsame]
  refine hlift.place (pre ++ [behind]) _ hm h0 (by simpa [relink] using hsplit)
    (h.not_mem_erase m) ?_ rfl (fun x hx => ?_) ?_ (h.acked_nodup behind) (h.acked_le behind)
    fun x hx => ?_
  · show insertAfter behind m (s.rtt.rttClhead.erase m) = _
    rw [hsplit, insertAfter_append_cons _ _ hpre]
    simp
  · simp [setVersion, mapFlags, relink, setHead, hx]
  · simp only [setVersion, mapFlags, relink, setHead, if_true, RtHead.isdummy, or_and_self_flag]
    decide
  · have hpending := hlift.pending behind hmem hbehind x hx
    dsimp only [relink] at hpending
    rw [hsplit, after_append_cons _ hpre] at hpending
    exact hpending

/-! ## Walks -/

/-- The heads whose change the marker has not acknowledged, in the order of the list. -/
def unacknowledged (marker : Ptr → Bool) (s : ChangeState) (m : Ptr) : List Ptr :=
  (changes marker s.rtt).filter fun x => change s.rtt x ∉ s.acked m

/-- They are the heads behind the marker. -/
theorem ChangesOk.unacknowledged_eq (h : ChangesOk marker s) {m : Ptr} (hm : marker m = true)
    {pre post : List Ptr} (hsplit : s.rtt.rttClhead = pre ++ m :: post) :
    unacknowledged marker s m = post.filter fun x => !marker x := by
  have hlinked : m ∈ s.rtt.rttClhead := by simp [hsplit]
  have hnodup := h.nodup
  rw [hsplit] at hnodup
  obtain ⟨-, hpost, hdisj⟩ := List.nodup_append.mp hnodup
  have hpre : m ∉ pre := fun hp => hdisj m hp m (by simp) rfl
  have hafter : after m s.rtt.rttClhead = post := by rw [hsplit, after_append_cons _ hpre]
  have hmem : unacknowledged marker s m = (changes marker s.rtt).filter (· ∈ post) := by
    refine List.filter_congr fun x hx => ?_
    rw [decide_eq_decide, ← h.pending m hlinked hm x hx, hafter]
  have hfront : (pre.filter fun x => !marker x).filter (· ∈ post) = [] := by
    refine List.filter_eq_nil_iff.mpr fun x hx => ?_
    have hne := hdisj x (List.mem_filter.mp hx).1 x
    simpa using fun hin => hne (List.mem_cons_of_mem _ hin) rfl
  have hback : (post.filter fun x => !marker x).filter (· ∈ post) =
      post.filter fun x => !marker x := by
    refine List.filter_eq_self.mpr fun x hx => ?_
    simpa using (List.mem_filter.mp hx).1
  rw [hmem, changes, hsplit, List.filter_append, List.filter_cons_of_neg (by simp [hm]),
    List.filter_append, hfront, hback, List.nil_append]

/-- What a walk hands to its callback: heads that the marker has not acknowledged, in their order
and at their versions. It leaves some of them for later only for a non-zero result, for the count,
or for a version above `maxVer`. -/
structure Delivered (marker : Ptr → Bool) (s : ChangeState) (m : Ptr) (maxnodes : BitVec 32)
    (maxVer : Nat) (w : Walked) : Prop where
  calls : w.calls.map ChangeCall.rth <+: unacknowledged marker s m
  versions : ∀ c ∈ w.calls, (c.rth, c.rthVersion) = change s.rtt c.rth
  stop : (∀ x ∈ unacknowledged marker s m, change s.rtt x ∈ w.taken) ∨ w.cbretval ≠ 0 ∨
    w.calls.length = (if maxnodes = 0 then 0xffffffff else maxnodes).toNat ∨
    ∃ x ∈ unacknowledged marker s m, change s.rtt x ∉ w.taken ∧
      maxVer < (s.rtt.heads x).rthVersion

/-- A walk by a marker on the list ends, keeps the invariant, and delivers what is pending. -/
theorem ChangesOk.walkchangelist (h : ChangesOk marker s) {m : Ptr} (hm : marker m = true)
    (hlinked : m ∈ s.rtt.rttClhead) (walkFn : Nat → Ptr → Int) (maxnodes : BitVec 32)
    (maxVer : Nat) :
    Delivers (s.rtt.stdRadicalWalkchangelist m walkFn maxnodes maxVer) fun w =>
      Delivered marker s m maxnodes maxVer w ∧
      ChangesOk marker { s.setAcked m (s.acked m ++ w.taken) with rtt := w.rtt } := by
  have h0 : m ≠ NULL := fun heq => h.null (heq ▸ hlinked)
  obtain ⟨pre, post, hsplit⟩ := List.append_of_mem hlinked
  have hpre : m ∉ pre := by
    have hnodup := h.nodup
    rw [hsplit, List.nodup_middle] at hnodup
    exact fun hp => (List.nodup_cons.mp hnodup).1 (List.mem_append_left _ hp)
  have herase : s.rtt.rttClhead.erase m = pre ++ post := by
    rw [hsplit, erase_append_cons _ hpre]
  have hafter : after m s.rtt.rttClhead = post := by rw [hsplit, after_append_cons _ hpre]
  have hlift := h.lift hm
  have hnodup : (pre ++ post).Nodup := herase ▸ hlift.nodup
  have hout : m ∉ pre ++ post := herase ▸ h.not_mem_erase m
  have hnull : NULL ∉ post := fun hmem => h.null (hsplit ▸ by simp [hmem])
  have hlen : post.length < s.rtt.rttClhead.length + 1 := by
    rw [hsplit, List.length_append, List.length_cons]
    omega
  have hcount : (if maxnodes = 0 then 0xffffffff else maxnodes) ≠ 0 := by
    split
    · decide
    · assumption
  unfold stdRadicalWalkchangelist
  rw [h.dummy m hlinked hm, islinked, List.contains_iff_mem.mpr hlinked, bne_iff_ne.mpr h0]
  simp only [assertThat_true, exec_bind_ok]
  rw [stdDllGetnext, hafter]
  refine (walkLoop_spec walkFn m maxVer _ (s.rtt.relink (s.rtt.rttClhead.erase m)) 0 _ 0 pre
    post
    hlen herase hnodup hnull hout hcount).mono ?_
  rintro w ⟨front, back, rfl, hends⟩
  have hsub : front ++ back ⊆ s.rtt.rttClhead := fun x hx => hsplit ▸ by
    rw [List.mem_append, List.mem_cons]
    exact .inr (.inr hx)
  have hfront : live s.rtt.heads front = front.filter fun x => !marker x :=
    h.live_eq fun x hx => hsub (List.mem_append_left _ hx)
  have hback : live s.rtt.heads back = back.filter fun x => !marker x :=
    h.live_eq fun x hx => hsub (List.mem_append_right _ hx)
  have hunack := h.unacknowledged_eq hm hsplit
  have htaken : w.taken = (front.filter fun x => !marker x).map (change s.rtt) := by
    rw [hends.taken]
    exact congrArg _ hfront
  have hdisj : ∀ x ∈ front, x ∉ back := fun x hx hx' =>
    (List.nodup_append.mp (List.nodup_append.mp hnodup).2.1).2.2 x hx x hx' rfl
  -- a head is acknowledged by this walk exactly when the marker passed over it
  have hmem : ∀ x, change s.rtt x ∈ w.taken ↔ x ∈ front ∧ marker x = false := fun x => by
    rw [htaken]
    constructor
    · intro hx
      obtain ⟨y, hy, heq⟩ := List.mem_map.mp hx
      obtain rfl : y = x := congrArg Prod.fst heq
      simpa using hy
    · exact fun hx => List.mem_map_of_mem (by simpa using hx)
  have hpending : ∀ x ∈ changes marker s.rtt, (x ∈ front ++ back ↔ change s.rtt x ∉ s.acked m) :=
    fun x hx => by rw [← h.pending m hlinked hm x hx, hafter]
  refine ⟨⟨?_, fun c hc => ?_, ?_⟩, ?_⟩
  · rw [hunack, ← h.live_eq hsub]
    exact hends.calls
  · exact Prod.ext rfl (hends.versions c hc)
  · rcases hends.stop with hstop | hstop | hstop | ⟨x, hx, hlt⟩
    · refine .inl fun x hx => ?_
      rw [hunack, List.filter_append, List.mem_append] at hx
      rcases hx with hx | hx
      · exact (hmem x).mpr (by simpa using hx)
      · rw [← hback] at hx
        exact absurd (hstop ▸ hx : x ∈ []) List.not_mem_nil
    · exact .inr (.inl hstop)
    · exact .inr (.inr (.inl hstop))
    · refine .inr (.inr (.inr ⟨x, ?_, fun ht => ?_, hlt⟩))
      · rw [hunack, List.filter_append, ← hback]
        exact List.mem_append_right _ hx
      · exact hdisj x ((hmem x).mp ht).1 (List.mem_filter.mp hx).1
  · obtain ⟨v, hv⟩ := hends.moved
    have hchanges : ∀ x ∈ front, marker x = false → x ∈ changes marker s.rtt := fun x hx hp =>
      mem_changes.mpr ⟨hsub (List.mem_append_left _ hx), hp⟩
    have hnew : ∀ c ∈ w.taken, ∃ x ∈ front, x ∈ changes marker s.rtt ∧ c = change s.rtt x := by
      intro c hc
      rw [htaken] at hc
      obtain ⟨x, hx, rfl⟩ := List.mem_map.mp hc
      obtain ⟨hx, hp⟩ : x ∈ front ∧ marker x = false := by simpa using hx
      exact ⟨x, hx, hchanges x hx hp, rfl⟩
    refine hlift.place (pre ++ front) back hm h0 ?_ (h.not_mem_erase m) ?_ ?_
      (fun x hx => ?_) ?_ ?_ ?_ fun x hx => ?_
    · exact herase.trans (List.append_assoc ..).symm
    · rw [hv]
      rfl
    · rw [hv]
      rfl
    · rw [hv, heads_place_ne _ _ hx]
    · rw [hv, isdummy_place]
      exact h.dummy m hlinked hm
    · refine (h.acked_nodup m).append ?_ fun c hc ht => ?_
      · rw [htaken]
        refine List.Nodup.map (fun x y heq => congrArg Prod.fst heq) (List.Nodup.filter _ ?_)
        exact (List.nodup_append.mp (List.nodup_append.mp hnodup).2.1).1
      · obtain ⟨x, hx, hx', rfl⟩ := hnew c ht
        exact (hpending x hx').mp (List.mem_append_left _ hx) hc
    · intro c hc
      rcases List.mem_append.mp hc with hc | hc
      · exact h.acked_le m c hc
      · obtain ⟨x, -, hx, rfl⟩ := hnew c hc
        exact h.le x hx
    · have hx' : x ∈ changes marker s.rtt :=
        mem_changes.mpr ⟨List.mem_of_mem_erase (mem_changes.mp hx).1, (mem_changes.mp hx).2⟩
      rw [List.mem_append, not_or]
      show x ∈ back ↔ change s.rtt x ∉ s.acked m ∧ change s.rtt x ∉ w.taken
      rw [← hpending x hx', hmem, List.mem_append]
      have hdis := hdisj x
      have hplain := (mem_changes.mp hx').2
      tauto

/-! ## Runs -/

/-- A walk that got past its assertions is a walk by a marker on the list. -/
theorem ChangesOk.walked (h : ChangesOk marker s) {m : Ptr} (hm : marker m = true)
    (walkFn : Nat → Ptr → Int) (maxnodes : BitVec 32) (maxVer : Nat) :
    Ensures (s.rtt.stdRadicalWalkchangelist m walkFn maxnodes maxVer) fun w =>
      ChangesOk marker { s.setAcked m (s.acked m ++ w.taken) with rtt := w.rtt } := by
  intro w hw
  have hlinked : m ∈ s.rtt.rttClhead := by
    unfold stdRadicalWalkchangelist at hw
    obtain ⟨-, -, hw⟩ := exec_bind_eq_ok.mp hw
    obtain ⟨-, -, hw⟩ := exec_bind_eq_ok.mp hw
    obtain ⟨_, hassert, -⟩ := exec_bind_eq_ok.mp hw
    have hcontains := ensures_assertThat _ _ hassert
    rwa [islinked, List.contains_iff_mem] at hcontains
  obtain ⟨w', hok, -, hkept⟩ := h.walkchangelist hm hlinked walkFn maxnodes maxVer
  obtain rfl : w' = w := by rw [hok] at hw; exact Except.ok.inj hw
  exact hkept

/-- Every call keeps the invariant. -/
theorem ChangesOk.step {op : ChangeOp} {s' : ChangeState} (h : ChangesOk marker s)
    (hop : op.Allowed marker s) (hstep : ChangeState.step op s = some s') :
    ChangesOk marker s' := by
  suffices hexec : Ensures (ChangeState.exec op s) (ChangesOk marker) by
    unfold ChangeState.step at hstep
    cases hrun : ChangeState.exec op s with
    | error e => rw [hrun] at hstep; cases hstep
    | ok s₁ =>
      rw [hrun] at hstep
      obtain rfl := Option.some.inj hstep
      exact hexec _ hrun
  cases op with
  | insert A copyOk rth bitlen =>
    exact .bind (h.insert A copyOk bitlen hop.1 hop.2) fun _ hr => ensures_ok.mpr hr
  | remove rth => exact .bind (h.remove hop) fun _ hr => ensures_ok.mpr hr
  | appendtochangelist rth =>
    exact .bind (h.append hop.1 hop.2) fun _ hr => ensures_ok.mpr hr
  | walkconstructor dummy => exact .bind (h.walkconstructor hop) fun _ hr => ensures_ok.mpr hr
  | walkconstructorafter behind dummy =>
    exact .bind (h.walkconstructorafter hop.1 hop.2.1 hop.2.2) fun _ hr => ensures_ok.mpr hr
  | walkdestructor dummy => exact .bind (h.walkdestructor hop) fun _ hr => ensures_ok.mpr hr
  | walkchangelist dummy walkFn maxnodes maxVer =>
    exact .bind (h.walked hop walkFn maxnodes maxVer) fun _ hr => ensures_ok.mpr hr

/-- Before the first change there is nothing to acknowledge. -/
theorem ChangesOk.init {rtt : RtTable} (hempty : rtt.rttClhead = [])
    (hclear : ∀ x, marker x = false →
      (rtt.heads x).isdummy = false ∧ (rtt.heads x).incl = false) :
    ChangesOk marker ⟨rtt, fun _ => []⟩ where
  nodup := by simp [hempty]
  null := by simp [hempty]
  dummy := by simp [hempty]
  plain x hx := (hclear x hx).1
  incl x hx := by simp [hempty, (hclear x hx).2]
  sorted := by simp [changes, hempty]
  le := by simp [changes, hempty]
  acked_nodup := by simp
  acked_le := by simp
  pending := by simp [hempty]

/-- In every state that is reached from a table with an empty change list, by calls of any number
of walkers in any order: the versions increase along the list, up to the version of the table; the
heads behind a marker are those whose change it has not acknowledged; no marker acknowledged a
change twice; and a walk delivers, in order, heads that its marker has not acknowledged. -/
theorem changes_acknowledged_once {init : RtTable} (hempty : init.rttClhead = [])
    (hclear : ∀ x, marker x = false →
      (init.heads x).isdummy = false ∧ (init.heads x).incl = false)
    (h : OpxCommonUtils.Reached ChangeState.step (fun s op => op.Allowed marker s)
      ⟨init, fun _ => []⟩ s) :
    ((changes marker s.rtt).Pairwise fun x y =>
      (s.rtt.heads x).rthVersion < (s.rtt.heads y).rthVersion) ∧
    (∀ x ∈ changes marker s.rtt, (s.rtt.heads x).rthVersion ≤ s.rtt.rttVersion) ∧
    (∀ m ∈ s.rtt.rttClhead, marker m = true → ∀ x ∈ changes marker s.rtt,
      (x ∈ after m s.rtt.rttClhead ↔ change s.rtt x ∉ s.acked m)) ∧
    (∀ m, (s.acked m).Nodup) ∧
    (∀ m ∈ s.rtt.rttClhead, marker m = true → ∀ walkFn maxnodes maxVer,
      Delivers (s.rtt.stdRadicalWalkchangelist m walkFn maxnodes maxVer)
        (Delivered marker s m maxnodes maxVer)) := by
  have hok : ChangesOk marker s :=
    h.invariant (ChangesOk.init hempty hclear) fun hs hop hstep => hs.step hop hstep
  refine ⟨hok.sorted, hok.le, hok.pending, hok.acked_nodup, fun m hm hmarker _ _ _ => ?_⟩
  exact (hok.walkchangelist hmarker hm _ _ _).mono fun _ hw => hw.1

/-- An empty table of a user whose heads all have the address zero. -/
def sampleTable : RtTable :=
  let heads : Ptr → RtHead := fun _ => { (default : RtHead) with rthAddr := some fun _ => 0 }
  { stdRadixCreate 32 true heads with rttRadicalused := true }

/-- Two heads change, one of them twice; the first walker is told to come back to it, the second
one, placed behind the first, stops after one head; then the other head is removed. -/
def sampleChanges : List ChangeOp :=
  [.walkconstructor 1, .insert .above true 10 8, .insert .above true 11 16,
    .appendtochangelist 10, .walkconstructorafter 1 2, .appendtochangelist 11,
    .appendtochangelist 10, .walkchangelist 1 (fun _ rth => if rth = 10 then -1 else 0) 0 5,
    .walkchangelist 2 (fun _ _ => 0) 1 5, .remove 11]

/-- After `sampleChanges` both walkers have acknowledged the change of the removed head, and have
the last change of the other one before them. -/
theorem changes_acknowledged_once_sample : ∃ s : ChangeState,
    s.rtt.rttClhead = [2, 1, 10] ∧ s.acked 1 = [(11, 2)] ∧ s.acked 2 = [(11, 2)] ∧
    ∀ m ∈ s.rtt.rttClhead, decide (m < 10) = true → ∀ x ∈ changes (fun p => p < 10) s.rtt,
      (x ∈ after m s.rtt.rttClhead ↔ change s.rtt x ∉ s.acked m) := by
  have hrun : (runSteps ChangeState.step sampleChanges ⟨sampleTable, fun _ => []⟩).map
      (fun s => (s.rtt.rttClhead, s.acked 1, s.acked 2)) =
      some ([2, 1, 10], [(11, 2)], [(11, 2)]) := by decide +kernel
  obtain ⟨s, hs, hend⟩ := Option.map_eq_some_iff.mp hrun
  have hflags : ∀ x, (sampleTable.heads x).rdclFlags = 0 := fun _ => rfl
  have hreached := Reached.runSteps_of_allMeet (fun s op => op.Allowed (fun p => p < 10) s)
    sampleChanges .init (by decide +kernel) hs
  have hpending := (changes_acknowledged_once rfl
    (fun x _ => by rw [RtHead.isdummy, RtHead.incl, hflags x]; decide) hreached).2.2.1
  simp only [Prod.mk.injEq] at hend
  exact ⟨s, hend.1, hend.2.1, hend.2.2, hpending⟩

end OpxCommonUtils.Radix
