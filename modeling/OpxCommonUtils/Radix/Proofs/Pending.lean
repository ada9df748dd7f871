import OpxCommonUtils.Radix.Pending
import OpxCommonUtils.Radix.Proofs.Acknowledged

/-!
# What a marker's version says

As long as no walk is bounded by a version below the one its marker has, the version of a marker
tells what it has acknowledged: the heads behind it are those with a greater version
(`VersionsOk`). So `std_radical_nextversion` answers the least version that is not acknowledged.
-/

namespace OpxCommonUtils.Radix

open RtTable

/-- The versions of the markers stand between those of the heads. -/
structure VersionsOk (marker : Ptr → Bool) (rtt : RtTable) : Prop where
  pos : ∀ x ∈ changes marker rtt, 0 < (rtt.heads x).rthVersion
  le : ∀ m ∈ rtt.rttClhead, marker m = true → (rtt.heads m).rthVersion ≤ rtt.rttVersion
  behind : ∀ m ∈ rtt.rttClhead, marker m = true → ∀ x ∈ changes marker rtt,
    (x ∈ after m rtt.rttClhead ↔ (rtt.heads m).rthVersion < (rtt.heads x).rthVersion)

section
variable {marker : Ptr → Bool} {s : ChangeState} {rtt : RtTable}

/-- The tree operations keep the versions. -/
theorem VersionsOk.same (h : VersionsOk marker rtt) {rtt' : RtTable} {freed : List Ptr}
    (hsame : SameChanges rtt rtt' freed) : VersionsOk marker rtt' := by
  have hver : ∀ x, (rtt'.heads x).rthVersion = (rtt.heads x).rthVersion :=
    fun x => (hsame.heads x).1
  have hchanges : changes marker rtt' = changes marker rtt := by
    rw [changes, hsame.clhead, changes]
  constructor
  case pos => simpa only [hchanges, hver] using h.pos
  case le => simpa only [hsame.clhead, hver, hsame.version] using h.le
  case behind => simpa only [hsame.clhead, hchanges, hver] using h.behind

/-- An item leaves the list, or is overwritten while it is not on it. -/
theorem VersionsOk.unlink (h : VersionsOk marker rtt) (hnodup : rtt.rttClhead.Nodup)
    {rtt' : RtTable} {p : Ptr} (hlist : rtt'.rttClhead = rtt.rttClhead.erase p)
    (hversion : rtt'.rttVersion = rtt.rttVersion)
    (hheads : ∀ x, x ≠ p → rtt'.heads x = rtt.heads x) : VersionsOk marker rtt' := by
  have hmem : ∀ x, x ∈ rtt'.rttClhead ↔ x ≠ p ∧ x ∈ rtt.rttClhead := fun x => by
    rw [hlist, hnodup.mem_erase_iff]
  have hin : ∀ x ∈ rtt'.rttClhead, rtt'.heads x = rtt.heads x := fun x hx =>
    hheads x ((hmem x).mp hx).1
  have hold : ∀ x ∈ changes marker rtt', x ∈ changes marker rtt := fun x hx =>
    mem_changes.mpr ⟨((hmem x).mp (mem_changes.mp hx).1).2, (mem_changes.mp hx).2⟩
  constructor
  case pos =>
    intro x hx
    rw [hin x (mem_changes.mp hx).1]
    exact h.pos x (hold x hx)
  case le =>
    intro m hm hmarker
    rw [hin m hm, hversion]
    exact h.le m ((hmem m).mp hm).2 hmarker
  case behind =>
    intro m hm hmarker x hx
    obtain ⟨hmp, hm'⟩ := (hmem m).mp hm
    have hxp : x ≠ p := ((hmem x).mp (mem_changes.mp hx).1).1
    have hback : after m rtt'.rttClhead = (after m rtt.rttClhead).filter (· != p) := by
      rw [hlist, hnodup.erase_eq_filter]
      exact after_filter (by simpa using hmp) _
    rw [hback, List.mem_filter, hin x (mem_changes.mp hx).1, hin m hm,
      ← h.behind m hm' hmarker x (hold x hx)]
    simp [hxp]

/-- A head goes to the back of the list with a new version. -/
theorem VersionsOk.push (h : VersionsOk marker rtt) {rtt' : RtTable} {rth : Ptr}
    (hrth : marker rth = false) (hout : rth ∉ rtt.rttClhead)
    (hlist : rtt'.rttClhead = rtt.rttClhead ++ [rth])
    (hversion : rtt'.rttVersion = rtt.rttVersion + 1)
    (hheads : ∀ x, x ≠ rth → rtt'.heads x = rtt.heads x)
    (hnew : (rtt'.heads rth).rthVersion = rtt'.rttVersion) : VersionsOk marker rtt' := by
  have hmem : ∀ x, x ∈ rtt'.rttClhead ↔ x ∈ rtt.rttClhead ∨ x = rth := fun x => by
    rw [hlist, List.mem_append, List.mem_singleton]
  have hin : ∀ x ∈ rtt.rttClhead, rtt'.heads x = rtt.heads x := fun x hx =>
    hheads x fun heq => hout (heq ▸ hx)
  have hcases : ∀ x ∈ changes marker rtt', x ∈ changes marker rtt ∨ x = rth := fun x hx =>
    ((hmem x).mp (mem_changes.mp hx).1).imp_left fun hx' =>
      mem_changes.mpr ⟨hx', (mem_changes.mp hx).2⟩
  have hmarked : ∀ m ∈ rtt'.rttClhead, marker m = true → m ∈ rtt.rttClhead :=
    fun m hm hmarker => ((hmem m).mp hm).resolve_right (ne_marker hrth hmarker).symm
  constructor
  case pos =>
    intro x hx
    rcases hcases x hx with hx | rfl
    · rw [hin x (mem_changes.mp hx).1]
      exact h.pos x hx
    · omega
  case le =>
    intro m hm hmarker
    have hm' := hmarked m hm hmarker
    have hle := h.le m hm' hmarker
    rw [hin m hm']
    omega
  case behind =>
    intro m hm hmarker x hx
    have hm' := hmarked m hm hmarker
    have hle := h.le m hm' hmarker
    rw [hlist, after_append_of_mem hm', List.mem_append, List.mem_singleton, hin m hm']
    rcases hcases x hx with hx | rfl
    · have hne : x ≠ rth := fun heq => hout (heq ▸ (mem_changes.mp hx).1)
      rw [hin x (mem_changes.mp hx).1, ← h.behind m hm' hmarker x hx]
      simp [hne]
    · exact iff_of_true (.inr rfl) (by omega)

/-- A marker is placed between `pre` and `post`, with a version between theirs. -/
theorem VersionsOk.place (h : VersionsOk marker rtt) {rtt' : RtTable} {m : Ptr}
    (pre post : List Ptr) (hm : marker m = true) (hsplit : rtt.rttClhead = pre ++ post)
    (hout : m ∉ rtt.rttClhead) (hlist : rtt'.rttClhead = pre ++ m :: post)
    (hversion : rtt'.rttVersion = rtt.rttVersion)
    (hheads : ∀ x, x ≠ m → rtt'.heads x = rtt.heads x)
    (hle : (rtt'.heads m).rthVersion ≤ rtt.rttVersion)
    (hbehind : ∀ x ∈ changes marker rtt,
      (x ∈ post ↔ (rtt'.heads m).rthVersion < (rtt.heads x).rthVersion)) :
    VersionsOk marker rtt' := by
  have hmem : ∀ x, x ∈ rtt'.rttClhead ↔ x ∈ rtt.rttClhead ∨ x = m := fun x => by
    rw [hlist, hsplit]
    simp only [List.mem_append, List.mem_cons]
    tauto
  have hchanges : changes marker rtt' = changes marker rtt := by
    rw [changes, changes, hlist, hsplit, List.filter_append, List.filter_append,
      List.filter_cons_of_neg (by simp [hm])]
  have hin : ∀ x ∈ changes marker rtt, rtt'.heads x = rtt.heads x := fun x hx =>
    hheads x (ne_marker (mem_changes.mp hx).2 hm)
  constructor
  case pos =>
    rw [hchanges]
    intro x hx
    rw [hin x hx]
    exact h.pos x hx
  case le =>
    intro m' hm' hmarker
    rw [hversion]
    by_cases heq : m' = m
    · rw [heq]
      exact hle
    · rw [hheads m' heq]
      exact h.le m' (((hmem m').mp hm').resolve_right heq) hmarker
  case behind =>
    intro m' hm' hmarker x hx
    rw [hchanges] at hx
    rw [hin x hx, hlist]
    by_cases heq : m' = m
    · have hpre : m ∉ pre := fun hp => hout (hsplit ▸ List.mem_append_left _ hp)
      rw [heq, after_append_cons _ hpre]
      exact hbehind x hx
    · have hm'' := ((hmem m').mp hm').resolve_right heq
      have hfilter := filter_after_insert (p := fun y => !marker y) (Ne.symm heq) (by simp [hm])
        pre post
      have hiff : x ∈ after m' (pre ++ m :: post) ↔ x ∈ after m' (pre ++ post) := by
        have := congrArg (x ∈ ·) hfilter
        simpa [List.mem_filter, (mem_changes.mp hx).2] using this
      rw [hiff, ← hsplit, hheads m' heq]
      exact h.behind m' hm'' hmarker x hx

end

/-! ## The version a walk leaves in its marker -/

/-- `v` is a version between the heads of `pre` and those of `post`. -/
structure Separates (heads : Ptr → RtHead) (v : Nat) (pre post : List Ptr) : Prop where
  front : ∀ x ∈ live heads pre, (heads x).rthVersion ≤ v
  back : ∀ x ∈ live heads post, v < (heads x).rthVersion

theorem separates_place {rtt : RtTable} {dummy v v' : Nat} {l pre post : List Ptr}
    (hout : dummy ∉ pre ++ post) :
    Separates (rtt.place dummy v' l).heads v pre post ↔ Separates rtt.heads v pre post := by
  have hsame : ∀ y ∈ pre ++ post, (rtt.place dummy v' l).heads y = rtt.heads y := by
    intro y hy
    refine heads_place_ne _ _ ?_ _ _
    rintro rfl
    exact hout hy
  have hfront : ∀ y ∈ live rtt.heads pre, (rtt.place dummy v' l).heads y = rtt.heads y :=
    fun y hy => hsame y (List.mem_append_left _ (List.mem_filter.mp hy).1)
  have hback : ∀ y ∈ live rtt.heads post, (rtt.place dummy v' l).heads y = rtt.heads y :=
    fun y hy => hsame y (List.mem_append_right _ (List.mem_filter.mp hy).1)
  constructor
  · rintro ⟨h₁, h₂⟩
    rw [live_place] at h₁ h₂
    exact ⟨fun y hy => hfront y hy ▸ h₁ y hy, fun y hy => hback y hy ▸ h₂ y hy⟩
  · rintro ⟨h₁, h₂⟩
    refine ⟨?_, ?_⟩
    · rw [live_place]
      exact fun y hy => (hfront y hy).symm ▸ h₁ y hy
    · rw [live_place]
      exact fun y hy => (hback y hy).symm ▸ h₂ y hy

/-- A walk between `pre` and `post`, with its marker off the list. -/
structure Scanning (rtt : RtTable) (dummy maxVer : Nat) (pre post : List Ptr) : Prop where
  list : rtt.rttClhead = pre ++ post
  nodup : (pre ++ post).Nodup
  null : NULL ∉ post
  out : dummy ∉ pre ++ post
  sorted : (live rtt.heads (pre ++ post)).Pairwise fun x y =>
    (rtt.heads x).rthVersion < (rtt.heads y).rthVersion
  le : ∀ x ∈ live rtt.heads (pre ++ post), (rtt.heads x).rthVersion ≤ rtt.rttVersion
  bound : (rtt.heads dummy).rthVersion ≤ maxVer
  dummy_le : (rtt.heads dummy).rthVersion ≤ rtt.rttVersion
  separates : Separates rtt.heads (rtt.heads dummy).rthVersion pre post

/-- The walk has ended somewhere behind `pre`, and left a version that is right there. -/
def Settles (rtt : RtTable) (dummy : Ptr) (pre post : List Ptr) (w : Walked) : Prop :=
  ∃ front back v, post = front ++ back ∧
    w.rtt = rtt.place dummy v (pre ++ front ++ dummy :: back) ∧ v ≤ rtt.rttVersion ∧
    Separates rtt.heads v (pre ++ front) back

section
variable {rtt : RtTable} {dummy maxVer x : Nat} {pre post : List Ptr}

theorem Scanning.not_mem (h : Scanning rtt dummy maxVer pre (x :: post)) :
    x ∉ pre ∧ x ≠ NULL ∧ x ≠ dummy := by
  obtain ⟨-, -, hdisj⟩ := List.nodup_append.mp h.nodup
  refine ⟨fun hx => hdisj x hx x List.mem_cons_self rfl, fun h0 => h.null (h0 ▸ List.mem_cons_self),
    fun heq => h.out (heq ▸ List.mem_append_right _ List.mem_cons_self)⟩

/-- A marker is passed over. -/
theorem Scanning.skip (h : Scanning rtt dummy maxVer pre (x :: post))
    (hx : (rtt.heads x).isdummy = true) : Scanning rtt dummy maxVer (pre ++ [x]) post := by
  have heq : pre ++ [x] ++ post = pre ++ x :: post := List.append_assoc ..
  have hlive : live rtt.heads (pre ++ [x]) = live rtt.heads pre := by
    rw [live_append, live_cons_dummy hx]
    exact List.append_nil _
  refine ⟨heq ▸ h.list, heq ▸ h.nodup, fun hin => h.null (List.mem_cons_of_mem _ hin), heq ▸ h.out,
    heq ▸ h.sorted, heq ▸ h.le, h.bound, h.dummy_le, hlive ▸ h.separates.front, ?_⟩
  have hback := h.separates.back
  rwa [live_cons_dummy hx] at hback

/-- The heads in front of a head on the list are older, and those behind it newer. -/
theorem Scanning.around (h : Scanning rtt dummy maxVer pre (x :: post))
    (hx : (rtt.heads x).isdummy = false) :
    Separates rtt.heads (rtt.heads x).rthVersion (pre ++ [x]) post := by
  have hsorted := h.sorted
  rw [live_append, live_cons_head hx] at hsorted
  obtain ⟨-, hpost, hpre⟩ := List.pairwise_append.mp hsorted
  refine ⟨fun y hy => ?_, fun y hy => (List.pairwise_cons.mp hpost).1 y hy⟩
  rw [live_append, List.mem_append] at hy
  rcases hy with hy | hy
  · exact (hpre y hy x List.mem_cons_self).le
  · rw [live_cons_head hx] at hy
    rcases List.mem_cons.mp hy with rfl | hy
    · exact le_rfl
    · cases hy

/-- A head is taken: its version becomes that of the marker. -/
theorem Scanning.take (h : Scanning rtt dummy maxVer pre (x :: post))
    (hx : (rtt.heads x).isdummy = false) (hold : ¬ maxVer < (rtt.heads x).rthVersion) :
    Scanning (rtt.place dummy (rtt.heads x).rthVersion (pre ++ x :: post)) dummy maxVer
      (pre ++ [x]) post := by
  have heq : pre ++ [x] ++ post = pre ++ x :: post := List.append_assoc ..
  have hsame : ∀ y ∈ pre ++ x :: post, (rtt.place dummy (rtt.heads x).rthVersion
      (pre ++ x :: post)).heads y = rtt.heads y := by
    intro y hy
    refine heads_place_ne _ _ ?_ _ _
    rintro rfl
    exact h.out hy
  have hself : ((rtt.place dummy (rtt.heads x).rthVersion (pre ++ x :: post)).heads
      dummy).rthVersion = (rtt.heads x).rthVersion := by
    simp [RtTable.place, relink, setVersion, setHead]
  have hmem : x ∈ live rtt.heads (pre ++ x :: post) := by
    rw [live_append, live_cons_head hx]
    simp
  have hlive : ∀ {y : Ptr} {l : List Ptr}, y ∈ live rtt.heads l → y ∈ l :=
    fun hy => (List.mem_filter.mp hy).1
  refine ⟨by rw [rttClhead_place, heq], heq ▸ h.nodup,
    fun hin => h.null (List.mem_cons_of_mem _ hin), heq ▸ h.out, ?_, ?_, ?_, ?_, ?_⟩
  · rw [heq, live_place]
    refine h.sorted.imp_of_mem fun ha hb hlt => ?_
    rw [hsame _ (hlive ha), hsame _ (hlive hb)]
    exact hlt
  · rw [heq, live_place]
    intro y hy
    rw [hsame y (hlive hy)]
    exact h.le y hy
  · rw [hself]
    omega
  · rw [hself]
    exact h.le x hmem
  · rw [hself]
    exact (separates_place (heq ▸ h.out)).mpr (h.around hx)

end

/-- The loop of a walk leaves a version in the marker that is right where it stops. -/
theorem walkLoop_settles (walkFn : Nat → Ptr → Int) (dummy : Ptr) (maxVer : Nat) (fuel : Nat) :
    ∀ (rtt : RtTable) (i : Nat) (maxnodes : BitVec 32) (cbretval : Int) (pre post : List Ptr),
      Scanning rtt dummy maxVer pre post →
      Ensures (walkLoop walkFn dummy maxVer fuel rtt i maxnodes (post.headD NULL) cbretval)
        (Settles rtt dummy pre post) := by
  induction fuel with
  | zero =>
    intro rtt i maxnodes cbretval pre post _
    exact ensures_error
  | succ fuel ih =>
    intro rtt i maxnodes cbretval pre post h
    rw [walkLoop]
    cases post with
    | nil =>
      rw [List.headD_nil, if_pos rfl]
      refine ensures_ok.mpr ⟨[], [], rtt.rttVersion, rfl, ?_, le_rfl, ?_, ?_⟩
      · have hlist : (rtt.setVersion dummy rtt.rttVersion).rttClhead = pre ++ [] := h.list
        dsimp only
        rw [hlist, List.append_nil]
        rfl
      · intro y hy
        exact h.le y hy
      · intro y hy
        cases hy
    | cons x post =>
      obtain ⟨hxpre, hx0, hxd⟩ := h.not_mem
      have hdpre : dummy ∉ pre ++ [x] := by
        intro hin
        rcases List.mem_append.mp hin with hin | hin
        · exact h.out (List.mem_append_left _ hin)
        · exact hxd (List.mem_singleton.mp hin).symm
      rw [List.headD_cons, if_neg hx0]
      by_cases hdummy : (rtt.heads x).isdummy = true
      · rw [if_pos hdummy, h.list, stdDllGetnext, after_append_cons _ hxpre]
        refine (ih rtt i maxnodes cbretval (pre ++ [x]) post (h.skip hdummy)).mono ?_
        rintro w ⟨front, back, v, rfl, hw, hle, hsep⟩
        refine ⟨x :: front, back, v, rfl, ?_, hle, ?_⟩
        · simpa using hw
        · simpa using hsep
      have hlive : (rtt.heads x).isdummy = false := by simpa using hdummy
      rw [if_neg hdummy]
      by_cases hnew : maxVer < (rtt.heads x).rthVersion
      · rw [if_pos hnew]
        have hmem : x ∈ live rtt.heads (pre ++ x :: post) := by
          rw [live_append, live_cons_head hlive]
          simp
        have hle := h.le x hmem
        have haround := h.around hlive
        refine ensures_ok.mpr ⟨[], x :: post, maxVer, rfl, ?_, by omega, ?_, ?_⟩
        · have hlist : (rtt.setVersion dummy maxVer).rttClhead = pre ++ x :: post := h.list
          dsimp only
          rw [hlist, insertBefore_append_cons _ _ hxpre, List.append_nil]
          rfl
        · intro y hy
          rw [List.append_nil] at hy
          exact (h.separates.front y hy).trans h.bound
        · intro y hy
          rw [live_cons_head hlive] at hy
          rcases List.mem_cons.mp hy with rfl | hy
          · exact hnew
          · exact hnew.trans (haround.back y hy)
      rw [if_neg hnew, h.list, insertAfter_append_cons _ _ hxpre]
      have haround := h.around hlive
      have hle : (rtt.heads x).rthVersion ≤ rtt.rttVersion :=
        h.le x (by rw [live_append, live_cons_head hlive]; simp)
      have herase : (pre ++ x :: dummy :: post).erase dummy = pre ++ x :: post := by
        simpa using erase_append_cons post hdpre
      have hnext : stdDllGetnext (pre ++ x :: dummy :: post) dummy = post.headD NULL := by
        have hafter := after_append_cons post hdpre
        rw [List.append_assoc, List.singleton_append] at hafter
        rw [stdDllGetnext, hafter]
      -- the walk ends with this head taken
      have hstop : ∀ result, Settles rtt dummy pre (x :: post)
          ⟨result, [⟨x, (rtt.heads x).rthVersion, result⟩],
            (rtt.relink (pre ++ x :: dummy :: post)).setVersion dummy
              (rtt.heads x).rthVersion⟩ := by
        intro result
        refine ⟨[x], post, (rtt.heads x).rthVersion, rfl, ?_, hle, haround⟩
        rw [List.append_assoc]
        rfl
      dsimp only
      rcases lt_trichotomy (walkFn i x) 0 with hneg | hzero | hpos
      · have hlinked : (rtt.relink (pre ++ x :: dummy :: post)).islinked x = true := by
          simp [islinked, relink]
        have hlist : (rtt.relink (pre ++ x :: dummy :: post)).rttClhead.erase dummy =
            pre ++ x :: post := herase
        rw [if_neg (Int.not_le.mpr hneg), if_pos hneg, hlinked, assertThat_true, exec_bind_ok,
          hlist, insertBefore_append_cons _ _ hxpre]
        refine ensures_ok.mpr ⟨[], x :: post, (rtt.heads dummy).rthVersion, rfl, ?_, h.dummy_le, ?_⟩
        · rw [← relink_eq_place, List.append_nil]
          rfl
        · rw [List.append_nil]
          exact h.separates
      · rw [hzero, if_pos le_rfl, if_neg (lt_irrefl 0), if_neg (not_not.mpr rfl)]
        by_cases hlast : maxnodes - 1 = 0
        · rw [if_pos hlast]
          exact ensures_ok.mpr (hstop 0)
        · rw [if_neg hlast]
          have hlist : ((rtt.relink (pre ++ x :: dummy :: post)).setVersion dummy
              (rtt.heads x).rthVersion).rttClhead = pre ++ x :: dummy :: post := rfl
          rw [hlist, herase, hnext]
          refine .bind (ih (rtt.place dummy (rtt.heads x).rthVersion (pre ++ x :: post)) (i + 1)
            (maxnodes - 1) 0 (pre ++ [x]) post (h.take hlive hnew)) ?_
          rintro w ⟨front, back, v, rfl, hw, hv, hsep⟩
          refine ensures_ok.mpr ⟨x :: front, back, v, rfl, ?_, hv, ?_⟩
          · dsimp only
            rw [hw, place_place]
            simp
          · have hout : dummy ∉ pre ++ [x] ++ front ++ back := by simpa using h.out
            simpa using (separates_place hout).mp hsep
      · rw [if_pos hpos.le, if_neg (Int.not_lt.mpr hpos.le), if_pos hpos.ne']
        exact ensures_ok.mpr (hstop _)

/-! ## The calls -/

section
variable {marker : Ptr → Bool} {s : ChangeState}

theorem VersionsOk.insert (h : VersionsOk marker s.rtt) (hok : ChangesOk marker s)
    (A : Malloc RtNode) (copyOk : Bool) {rth : Ptr} (bitlen : Nat) (hout : rth ∉ s.rtt.rttClhead) :
    Ensures (s.rtt.stdRadixInsert A copyOk rth bitlen) fun r => VersionsOk marker r.2 := by
  unfold stdRadixInsert
  refine .bind (s.rtt.prepareKey_same copyOk rth) ?_
  rintro ⟨ok, rtt⟩ hsame
  have hprep : VersionsOk marker rtt := h.same hsame
  have hout' : rth ∉ rtt.rttClhead := by rwa [hsame.clhead]
  dsimp only
  split
  · exact ensures_ok.mpr hprep
  have hclear : Ensures (rtt.debugStart rth) (VersionsOk marker) := by
    refine (rtt.debugStart_other rth).mono ?_
    rintro rtt' ⟨hlist, hversion, hheads, -⟩
    have hnodup : rtt.rttClhead.Nodup := hsame.clhead ▸ hok.nodup
    exact hprep.unlink hnodup (hlist.trans (List.erase_of_not_mem hout').symm) hversion hheads
  refine .bind hclear fun rtt₁ hdebug => ?_
  split
  · exact ensures_ok.mpr hdebug
  · refine (rtt₁.insertKey_same A rth bitlen).mono ?_
    rintro r ⟨_, hr, -⟩
    exact hdebug.same hr

theorem VersionsOk.remove (h : VersionsOk marker s.rtt) (hok : ChangesOk marker s) (rth : Ptr) :
    Ensures (s.rtt.stdRadixRemove rth) (VersionsOk marker) := by
  have hcount : SameChanges s.rtt { s.rtt with rttNremoves := s.rtt.rttNremoves + 1 } [] :=
    .of_eq rfl rfl rfl rfl
  unfold stdRadixRemove
  refine .bindAny fun hd => .bindAny fun n => ?_
  split
  · refine .bindAny fun nodes => .bindAny fun _ => ensures_ok.mpr ?_
    exact h.same (hcount.then_eq rfl rfl rfl rfl)
  refine .bind (removeNode_same _ hd.rthRtn .walkup) ?_
  rintro ⟨_, _, rtt⟩ ⟨_, hsame, -⟩
  have hrtt : VersionsOk marker rtt := h.same (hcount.trans hsame)
  have hnodup : rtt.rttClhead.Nodup := (hcount.trans hsame).clhead ▸ hok.nodup
  refine ensures_ok.mpr ?_
  unfold unlinkChange
  split
  · exact hrtt.unlink hnodup (p := rth) rfl rfl fun x hx => if_neg hx
  · exact hrtt

theorem VersionsOk.append (h : VersionsOk marker s.rtt) (hok : ChangesOk marker s) {rth : Ptr}
    (hrth : marker rth = false) (hwrap : s.rtt.rttVersion + 1 < 2 ^ 64) :
    Ensures (s.rtt.stdRadicalAppendtochangelist rth) fun r => VersionsOk marker r.2 := by
  unfold stdRadicalAppendtochangelist
  refine .bindAny fun _ => .bindAny fun _ => ?_
  have hoff : VersionsOk marker (s.rtt.relink (s.rtt.rttClhead.erase rth)) :=
    h.unlink hok.nodup rfl rfl fun _ _ => rfl
  have hout : rth ∉ s.rtt.rttClhead.erase rth :=
    fun hmem => (hok.nodup.mem_erase_iff.mp hmem).1 rfl
  have hversion : (s.rtt.rttVersion + 1) % 2 ^ 64 = s.rtt.rttVersion + 1 := Nat.mod_eq_of_lt hwrap
  refine .bind (P := fun rtt => rtt = s.rtt.relink (s.rtt.rttClhead.erase rth)) ?_ ?_
  · unfold unlistHead
    split
    · exact .bindAny fun _ => ensures_ok.mpr rfl
    · rename_i hincl
      have hnot : rth ∉ s.rtt.rttClhead := mt (hok.incl rth hrth).mpr hincl
      exact ensures_ok.mpr (by rw [List.erase_of_not_mem hnot]; rfl)
  rintro _ rfl
  refine ensures_ok.mpr ?_
  have hne : (s.rtt.rttVersion + 1) % 2 ^ 64 ≠ 0 := by omega
  split
  · rename_i hzero
    exact absurd hzero hne
  refine hoff.push hrth hout rfl hversion (fun x hx => ?_) ?_
  · simp [setVersion, mapFlags, relink, setHead, hx]
  · simp [setVersion, mapFlags, relink, setHead]

/-- A marker leaves the list. -/
theorem VersionsOk.lift (h : VersionsOk marker s.rtt) (hok : ChangesOk marker s) (m : Ptr) :
    VersionsOk marker (s.rtt.relink (s.rtt.rttClhead.erase m)) :=
  h.unlink hok.nodup rfl rfl fun _ _ => rfl

theorem VersionsOk.walkdestructor (h : VersionsOk marker s.rtt) (hok : ChangesOk marker s)
    (m : Ptr) : Ensures (s.rtt.stdRadicalWalkdestructor m) (VersionsOk marker) := by
  unfold stdRadicalWalkdestructor
  refine .bindAny fun _ => ensures_ok.mpr ?_
  have hheads : ∀ x, x ≠ m → (s.rtt.mapFlags m (· &&& ~~~RDCL_DUMMY)).heads x = s.rtt.heads x :=
    fun x hx => if_neg hx
  split
  · exact h.unlink hok.nodup (p := m) rfl rfl hheads
  · rename_i hout
    have hout' : m ∉ s.rtt.rttClhead := by simpa [islinked, mapFlags, setHead] using hout
    exact h.unlink hok.nodup (p := m) (List.erase_of_not_mem hout').symm rfl hheads

theorem VersionsOk.walkconstructor (h : VersionsOk marker s.rtt) (hok : ChangesOk marker s)
    {m : Ptr} (hm : marker m = true) :
    Ensures (s.rtt.stdRadicalWalkconstructor m) (VersionsOk marker) := by
  unfold stdRadicalWalkconstructor
  refine .bindAny fun _ => ensures_ok.mpr ?_
  have hsame : (if (s.rtt.heads m).isdummy && s.rtt.islinked m then
      s.rtt.relink (s.rtt.rttClhead.erase m) else s.rtt) =
      s.rtt.relink (s.rtt.rttClhead.erase m) := by
    split
    · rfl
    · rename_i hnot
      have hout : m ∉ s.rtt.rttClhead := fun hmem =>
        hnot (by simp [hok.dummy m hmem hm, islinked, hmem])
      rw [List.erase_of_not_mem hout]
      rfl
  rw [hsame]
  have hlift := h.lift hok m
  have hzero : ∀ rtt : RtTable, ((rtt.setVersion m 0).heads m).rthVersion = 0 := by
    intro rtt
    simp [setVersion, setHead]
  refine hlift.place _ _ hm (List.nil_append _).symm (hok.not_mem_erase m) rfl rfl
    (fun x hx => ?_) ?_ fun x hx => ?_
  · simp [setVersion, mapFlags, relink, setHead, hx]
  · rw [hzero]
    exact Nat.zero_le _
  · rw [hzero]
    exact iff_of_true (mem_changes.mp hx).1 (hlift.pos x hx)

theorem VersionsOk.walkconstructorafter (h : VersionsOk marker s.rtt) (hok : ChangesOk marker s)
    {behind m : Ptr} (hbehind : marker behind = true) (hm : marker m = true) (hne : behind ≠ m) :
    Ensures (s.rtt.stdRadicalWalkconstructorafter behind m) (VersionsOk marker) := by
  unfold stdRadicalWalkconstructorafter
  refine .bindAny fun _ => .bindAny fun _ => .bindAny fun _ => ?_
  refine .bind (ensures_assertThat _) fun _ hlinked => ensures_ok.mpr ?_
  rw [islinked, List.contains_iff_mem] at hlinked
  have hsame : (if s.rtt.islinked m then s.rtt.relink (s.rtt.rttClhead.erase m) else s.rtt) =
      s.rtt.relink (s.rtt.rttClhead.erase m) := by
    split
    · rfl
    · rename_i hnot
      have hout : m ∉ s.rtt.rttClhead := by simpa [islinked] using hnot
      rw [List.erase_of_not_mem hout]
      rfl
  have hlift := h.lift hok m
  have hmem : behind ∈ s.rtt.rttClhead.erase m := hok.nodup.mem_erase_iff.mpr ⟨hne, hlinked⟩
  obtain ⟨pre, post, hsplit⟩ := List.append_of_mem hmem
  have hpre : behind ∉ pre := by
    have hnodup := hok.nodup.erase m
    rw [hsplit, List.nodup_middle] at hnodup
    exact fun hp => (List.nodup_cons.mp hnodup).1 (List.mem_append_left _ hp)
  rw [hsame]
  refine hlift.place (pre ++ [behind]) post hm (by simpa [relink] using hsplit)
    (hok.not_mem_erase m) ?_ rfl (fun x hx => ?_) ?_ fun x hx => ?_
  · show insertAfter behind m (s.rtt.rttClhead.erase m) = _
    rw [hsplit, insertAfter_append_cons _ _ hpre]
    simp
  · simp [setVersion, mapFlags, relink, setHead, hx]
  · simp [setVersion, mapFlags, relink, setHead, hne]
    exact h.le behind hlinked hbehind
  · have hpending := hlift.behind behind hmem hbehind x hx
    dsimp only [relink] at hpending
    rw [hsplit, after_append_cons _ hpre] at hpending
    simpa [setVersion, mapFlags, relink, setHead, hne] using hpending

/-- Where a linked marker is, with the heads around it. -/
theorem VersionsOk.scanning (h : VersionsOk marker s.rtt) (hok : ChangesOk marker s) {m : Ptr}
    (hm : marker m = true) {maxVer : Nat} (hbound : (s.rtt.heads m).rthVersion ≤ maxVer)
    {pre post : List Ptr} (hsplit : s.rtt.rttClhead = pre ++ m :: post) (hpre : m ∉ pre) :
    Scanning (s.rtt.relink (s.rtt.rttClhead.erase m)) m maxVer pre post := by
  have hlinked : m ∈ s.rtt.rttClhead := by simp [hsplit]
  have herase : s.rtt.rttClhead.erase m = pre ++ post := by
    rw [hsplit, erase_append_cons _ hpre]
  have hafter : after m s.rtt.rttClhead = post := by rw [hsplit, after_append_cons _ hpre]
  have hsub : ∀ {x : Ptr}, x ∈ pre ++ post → x ∈ s.rtt.rttClhead := by
    intro x hx
    rw [hsplit, List.mem_append, List.mem_cons]
    exact (List.mem_append.mp hx).imp_right .inr
  have hlive : live s.rtt.heads (pre ++ post) = changes marker s.rtt := by
    rw [hok.live_eq fun x hx => hsub hx, changes, hsplit, List.filter_append, List.filter_append,
      List.filter_cons_of_neg (by simp [hm])]
  have hnodup : (pre ++ post).Nodup := herase ▸ hok.nodup.erase m
  have hchange : ∀ {x : Ptr} {l : List Ptr}, (∀ y ∈ l, y ∈ pre ++ post) →
      x ∈ live s.rtt.heads l → x ∈ changes marker s.rtt := by
    intro x l hl hx
    obtain ⟨hin, hplain⟩ := List.mem_filter.mp hx
    rw [← hlive]
    exact List.mem_filter.mpr ⟨hl x hin, hplain⟩
  refine ⟨herase, hnodup, fun hnull => hok.null (hsub (List.mem_append_right _ hnull)),
    herase ▸ hok.not_mem_erase m, ?_, ?_, hbound, h.le m hlinked hm, ?_, ?_⟩
  · exact hlive ▸ hok.sorted
  · exact hlive ▸ hok.le
  · intro x hx
    have hin := hchange (fun y hy => List.mem_append_left _ hy) hx
    have hnot : x ∉ post :=
      fun hpost => (List.nodup_append.mp hnodup).2.2 x (List.mem_filter.mp hx).1 x hpost rfl
    have hbehind := h.behind m hlinked hm x hin
    rw [hafter] at hbehind
    exact Nat.le_of_not_lt fun hlt => hnot (hbehind.mpr hlt)
  · intro x hx
    have hin := hchange (fun y hy => List.mem_append_right _ hy) hx
    have hbehind := h.behind m hlinked hm x hin
    rw [hafter] at hbehind
    exact hbehind.mp (List.mem_filter.mp hx).1

theorem VersionsOk.walkchangelist (h : VersionsOk marker s.rtt) (hok : ChangesOk marker s)
    {m : Ptr} (hm : marker m = true) (walkFn : Nat → Ptr → Int) (maxnodes : BitVec 32)
    {maxVer : Nat} (hbound : (s.rtt.heads m).rthVersion ≤ maxVer) :
    Ensures (s.rtt.stdRadicalWalkchangelist m walkFn maxnodes maxVer)
      fun w => VersionsOk marker w.rtt := by
  unfold stdRadicalWalkchangelist
  refine .bindAny fun _ => .bindAny fun _ => .bind (ensures_assertThat _) fun _ hlinked => ?_
  rw [islinked, List.contains_iff_mem] at hlinked
  obtain ⟨pre, post, hsplit⟩ := List.append_of_mem hlinked
  have hpre : m ∉ pre := by
    have hnodup := hok.nodup
    rw [hsplit, List.nodup_middle] at hnodup
    exact fun hp => (List.nodup_cons.mp hnodup).1 (List.mem_append_left _ hp)
  have hscan := h.scanning hok hm hbound hsplit hpre
  have hafter : after m s.rtt.rttClhead = post := by rw [hsplit, after_append_cons _ hpre]
  dsimp only
  rw [stdDllGetnext, hafter]
  refine (walkLoop_settles walkFn m maxVer _ _ 0 _ 0 pre post hscan).mono ?_
  rintro w ⟨front, back, v, rfl, hw, hle, hsep⟩
  have hlist : s.rtt.rttClhead.erase m = pre ++ front ++ back := by
    rw [List.append_assoc]
    exact hscan.list
  have hplain : ∀ {x : Ptr} {l : List Ptr}, marker x = false → x ∈ l → x ∈ live s.rtt.heads l :=
    fun hx hin => List.mem_filter.mpr ⟨hin, by simp [hok.plain _ hx]⟩
  refine (h.lift hok m).place (pre ++ front) back hm hlist (hok.not_mem_erase m) ?_ ?_
    (fun x hx => ?_) ?_ fun x hx => ?_
  · rw [hw]
    rfl
  · rw [hw]
    rfl
  · rw [hw, heads_place_ne _ _ hx]
  · rw [hw]
    simpa [RtTable.place, relink, setVersion, setHead] using hle
  · have hver : (w.rtt.heads m).rthVersion = v := by
      rw [hw]
      simp [RtTable.place, relink, setVersion, setHead]
    obtain ⟨hin, hx'⟩ := mem_changes.mp hx
    replace hin : x ∈ pre ++ front ++ back := hlist ▸ hin
    rw [hver]
    constructor
    · exact fun hback => hsep.back x (hplain hx' hback)
    · intro hlt
      rcases List.mem_append.mp hin with hfront | hback
      · exact absurd (hsep.front x (hplain hx' hfront)) (Nat.not_le_of_lt hlt)
      · exact hback

end

/-! ## Runs -/

/-- A walk is not bounded by a version that its marker has passed. -/
def ChangeOp.Forward (s : ChangeState) : ChangeOp → Prop
  | .walkchangelist dummy _ _ maxVer => (s.rtt.heads dummy).rthVersion ≤ maxVer
  | _ => True

instance (s : ChangeState) : (op : ChangeOp) → Decidable (op.Forward s)
  | .walkchangelist dummy _ _ maxVer =>
    inferInstanceAs (Decidable ((s.rtt.heads dummy).rthVersion ≤ maxVer))
  | .insert .. | .remove _ | .appendtochangelist _ | .walkconstructor _
  | .walkconstructorafter .. | .walkdestructor _ => inferInstanceAs (Decidable True)

section
variable {marker : Ptr → Bool} {s : ChangeState}

/-- Every call keeps the versions of the markers between those of the heads. -/
theorem VersionsOk.step (h : VersionsOk marker s.rtt) (hok : ChangesOk marker s) {op : ChangeOp}
    {s' : ChangeState} (hop : op.Allowed marker s) (hforward : op.Forward s)
    (hstep : ChangeState.step op s = some s') : VersionsOk marker s'.rtt := by
  suffices hexec : Ensures (ChangeState.exec op s) fun s' => VersionsOk marker s'.rtt by
    unfold ChangeState.step at hstep
    cases hrun : ChangeState.exec op s with
    | error e => rw [hrun] at hstep; cases hstep
    | ok s₁ =>
      rw [hrun] at hstep
      obtain rfl := Option.some.inj hstep
      exact hexec _ hrun
  cases op with
  | insert A copyOk rth bitlen =>
    exact .bind (h.insert hok A copyOk bitlen hop.2) fun _ hr => ensures_ok.mpr hr
  | remove rth => exact .bind (h.remove hok rth) fun _ hr => ensures_ok.mpr hr
  | appendtochangelist rth =>
    exact .bind (h.append hok hop.1 hop.2) fun _ hr => ensures_ok.mpr hr
  | walkconstructor dummy => exact .bind (h.walkconstructor hok hop) fun _ hr => ensures_ok.mpr hr
  | walkconstructorafter behind dummy =>
    exact .bind (h.walkconstructorafter hok hop.1 hop.2.1 hop.2.2) fun _ hr => ensures_ok.mpr hr
  | walkdestructor dummy =>
    exact .bind (h.walkdestructor hok dummy) fun _ hr => ensures_ok.mpr hr
  | walkchangelist dummy walkFn maxnodes maxVer =>
    exact .bind (h.walkchangelist hok hop walkFn maxnodes hforward) fun _ hr => ensures_ok.mpr hr

theorem VersionsOk.init {rtt : RtTable} (hempty : rtt.rttClhead = []) : VersionsOk marker rtt where
  pos := by simp [changes, hempty]
  le := by simp [hempty]
  behind := by simp [hempty]

theorem reached_versions {init : RtTable} (hempty : init.rttClhead = [])
    (hclear : ∀ x, marker x = false →
      (init.heads x).isdummy = false ∧ (init.heads x).incl = false)
    (h : OpxCommonUtils.Reached ChangeState.step
      (fun s op => op.Allowed marker s ∧ op.Forward s) ⟨init, fun _ => []⟩ s) :
    ChangesOk marker s ∧ VersionsOk marker s.rtt :=
  h.invariant (P := fun s => ChangesOk marker s ∧ VersionsOk marker s.rtt)
    ⟨.init hempty hclear, .init hempty⟩
    fun hs hop hstep => ⟨hs.1.step hop.1 hstep, hs.2.step hs.1 hop.1 hop.2 hstep⟩

end

/-! ## What the list answers -/

section
variable {rtt : RtTable}

/-- The loop comes to the first head. -/
theorem skipDummies_spec (post : List Ptr) : ∀ (fuel : Nat) (pre : List Ptr),
    rtt.rttClhead = pre ++ post → rtt.rttClhead.Nodup → NULL ∉ post → post.length < fuel →
    rtt.skipDummies fuel (post.headD NULL) = .ok ((live rtt.heads post).headD NULL) := by
  induction post with
  | nil =>
    intro fuel pre _ _ _ hlen
    obtain ⟨fuel, rfl⟩ := Nat.exists_eq_succ_of_ne_zero (by omega : fuel ≠ 0)
    rw [skipDummies, List.headD_nil, if_pos rfl]
    rfl
  | cons x post ih =>
    intro fuel pre hlist hnodup hnull hlen
    obtain ⟨fuel, rfl⟩ := Nat.exists_eq_succ_of_ne_zero (by omega : fuel ≠ 0)
    have hx0 : x ≠ NULL := fun h0 => hnull (h0 ▸ List.mem_cons_self)
    have hxpre : x ∉ pre := by
      rw [hlist, List.nodup_middle] at hnodup
      exact fun hp => (List.nodup_cons.mp hnodup).1 (List.mem_append_left _ hp)
    rw [skipDummies, List.headD_cons, if_neg hx0]
    cases hx : (rtt.heads x).isdummy with
    | true =>
      rw [if_pos rfl, stdDllGetnext, hlist, after_append_cons _ hxpre, live_cons_dummy hx]
      refine ih fuel (pre ++ [x]) ?_ hnodup (fun hin => hnull (List.mem_cons_of_mem _ hin)) ?_
      · rw [hlist, List.append_assoc]
        rfl
      · simpa using hlen
    | false =>
      rw [if_neg (by decide), live_cons_head hx]
      rfl

/-- The loop behind a marker comes to the version of the next head. -/
theorem nextversionLoop_spec (post : List Ptr) : ∀ (fuel : Nat) (pre : List Ptr) (x : Ptr),
    rtt.rttClhead = pre ++ x :: post → rtt.rttClhead.Nodup → NULL ∉ post → post.length < fuel →
    (rtt.heads x).isdummy = true → rtt.nextversionLoop fuel x =
      .ok ((live rtt.heads post).head?.elim 0 fun y => (rtt.heads y).rthVersion) := by
  induction post with
  | nil =>
    intro fuel pre x hlist hnodup _ hlen hx
    obtain ⟨fuel, rfl⟩ := Nat.exists_eq_succ_of_ne_zero (by omega : fuel ≠ 0)
    have hxpre : x ∉ pre := by
      rw [hlist, List.nodup_middle] at hnodup
      exact fun hp => (List.nodup_cons.mp hnodup).1 (List.mem_append_left _ hp)
    rw [nextversionLoop, if_pos hx, stdDllGetnext, hlist, after_append_cons _ hxpre]
    rfl
  | cons y post ih =>
    intro fuel pre x hlist hnodup hnull hlen hx
    obtain ⟨fuel, rfl⟩ := Nat.exists_eq_succ_of_ne_zero (by omega : fuel ≠ 0)
    have hy0 : y ≠ NULL := fun h0 => hnull (h0 ▸ List.mem_cons_self)
    have hxpre : x ∉ pre := by
      have hnodup' := hnodup
      rw [hlist, List.nodup_middle] at hnodup'
      exact fun hp => (List.nodup_cons.mp hnodup').1 (List.mem_append_left _ hp)
    have hnext : stdDllGetnext rtt.rttClhead x = y := by
      rw [stdDllGetnext, hlist, after_append_cons _ hxpre]
      rfl
    rw [nextversionLoop, if_pos hx, hnext, if_neg hy0]
    cases hy : (rtt.heads y).isdummy with
    | true =>
      rw [live_cons_dummy hy]
      refine ih fuel (pre ++ [x]) y ?_ hnodup (fun hin => hnull (List.mem_cons_of_mem _ hin)) ?_ hy
      · rw [hlist, List.append_assoc]
        rfl
      · simpa using hlen
    | false =>
      obtain ⟨fuel, rfl⟩ : ∃ n, fuel = n + 1 :=
        Nat.exists_eq_succ_of_ne_zero (by rw [List.length_cons] at hlen; omega)
      rw [nextversionLoop, if_neg (by rw [hy]; decide), live_cons_head hy]
      rfl

end

section
variable {marker : Ptr → Bool} {s : ChangeState}

/-- The least version a marker has not acknowledged, or 0. -/
theorem VersionsOk.nextversion (h : VersionsOk marker s.rtt) (hok : ChangesOk marker s) {m : Ptr}
    (hm : marker m = true) (hlinked : m ∈ s.rtt.rttClhead) :
    ∃ v, s.rtt.stdRadicalNextversion m = .ok v ∧
      (v = 0 ↔ unacknowledged marker s m = []) ∧
      (v ≠ 0 → ∃ x ∈ unacknowledged marker s m, (s.rtt.heads x).rthVersion = v) ∧
      ∀ x ∈ unacknowledged marker s m, v ≤ (s.rtt.heads x).rthVersion := by
  obtain ⟨pre, post, hsplit⟩ := List.append_of_mem hlinked
  have hunack := hok.unacknowledged_eq hm hsplit
  have hpost : live s.rtt.heads post = unacknowledged marker s m := by
    rw [hunack, hok.live_eq]
    intro x hx
    rw [hsplit, List.mem_append, List.mem_cons]
    exact .inr (.inr hx)
  have hrun : s.rtt.stdRadicalNextversion m =
      .ok ((unacknowledged marker s m).head?.elim 0 fun y => (s.rtt.heads y).rthVersion) := by
    rw [stdRadicalNextversion, hok.dummy m hlinked hm, islinked,
      List.contains_iff_mem.mpr hlinked, assertThat_true, exec_bind_ok, exec_bind_ok, ← hpost]
    refine nextversionLoop_spec post _ pre m hsplit hok.nodup (fun hnull => hok.null ?_) ?_
      (hok.dummy m hlinked hm)
    · rw [hsplit]
      simp [hnull]
    · rw [hsplit, List.length_append, List.length_cons]
      omega
  have hsub : ∀ x ∈ unacknowledged marker s m, x ∈ changes marker s.rtt :=
    fun x hx => (List.mem_filter.mp hx).1
  have hsorted : (unacknowledged marker s m).Pairwise fun x y =>
      (s.rtt.heads x).rthVersion < (s.rtt.heads y).rthVersion := hok.sorted.filter _
  refine ⟨_, hrun, ?_⟩
  cases hlist : unacknowledged marker s m with
  | nil =>
    refine ⟨by simp, fun hne => absurd rfl hne, fun x hx => ?_⟩
    cases hx
  | cons y ys =>
    rw [hlist] at hsorted hsub
    have hpos := h.pos y (hsub y List.mem_cons_self)
    refine ⟨?_, fun _ => ⟨y, List.mem_cons_self, rfl⟩, fun x hx => ?_⟩
    · rw [List.head?_cons]
      dsimp only [Option.elim]
      exact iff_of_false (by omega) (List.cons_ne_nil y ys)
    · rw [List.head?_cons]
      rcases List.mem_cons.mp hx with rfl | hx
      · exact le_rfl
      · exact ((List.pairwise_cons.mp hsorted).1 x hx).le

/-- The heads on the list one after the other. -/
theorem ChangesOk.enumerates (hok : ChangesOk marker s) :
    s.rtt.stdRadicalGetfirst = .ok ((changes marker s.rtt).headD NULL) ∧
      ∀ x ∈ changes marker s.rtt,
        s.rtt.stdRadicalGetnext x = .ok ((after x (changes marker s.rtt)).headD NULL) := by
  constructor
  · rw [stdRadicalGetfirst, changes, ← hok.live_eq fun _ hx => hx]
    exact skipDummies_spec s.rtt.rttClhead _ [] rfl hok.nodup hok.null (Nat.lt_succ_self _)
  · intro x hx
    obtain ⟨hin, hplain⟩ := mem_changes.mp hx
    obtain ⟨pre, post, hsplit⟩ := List.append_of_mem hin
    have hpre : x ∉ pre := by
      have hnodup := hok.nodup
      rw [hsplit, List.nodup_middle] at hnodup
      exact fun hp => (List.nodup_cons.mp hnodup).1 (List.mem_append_left _ hp)
    have hafter : after x s.rtt.rttClhead = post := by rw [hsplit, after_append_cons _ hpre]
    have hsub : post ⊆ s.rtt.rttClhead := fun y hy => by
      rw [hsplit, List.mem_append, List.mem_cons]
      exact .inr (.inr hy)
    rw [stdRadicalGetnext, stdDllGetnext, changes, after_filter (by simpa using hplain), hafter,
      ← hok.live_eq hsub]
    refine skipDummies_spec post _ (pre ++ [x]) ?_ hok.nodup (fun hnull => hok.null (hsub hnull)) ?_
    · rw [hsplit, List.append_assoc]
      rfl
    · rw [hsplit, List.length_append, List.length_cons]
      omega

/-- In every state that is reached from a table with an empty change list, by calls of any number
of walkers in any order, whose walks are not bounded by versions that their markers have passed:
the heads with a greater version than a marker are those whose change it has not acknowledged;
`std_radical_nextversion` answers the least of their versions, or 0 where there is none; and
`std_radical_getfirst` and `std_radical_getnext` go through the heads on the list. -/
theorem marker_versions {init : RtTable} (hempty : init.rttClhead = [])
    (hclear : ∀ x, marker x = false →
      (init.heads x).isdummy = false ∧ (init.heads x).incl = false)
    (h : OpxCommonUtils.Reached ChangeState.step
      (fun s op => op.Allowed marker s ∧ op.Forward s) ⟨init, fun _ => []⟩ s) :
    (∀ m ∈ s.rtt.rttClhead, marker m = true →
      (∀ x ∈ changes marker s.rtt, ((s.rtt.heads m).rthVersion < (s.rtt.heads x).rthVersion ↔
        change s.rtt x ∉ s.acked m)) ∧
      ∃ v, s.rtt.stdRadicalNextversion m = .ok v ∧
        (v = 0 ↔ unacknowledged marker s m = []) ∧
        (v ≠ 0 → ∃ x ∈ unacknowledged marker s m, (s.rtt.heads x).rthVersion = v) ∧
        ∀ x ∈ unacknowledged marker s m, v ≤ (s.rtt.heads x).rthVersion) ∧
    s.rtt.stdRadicalGetfirst = .ok ((changes marker s.rtt).headD NULL) ∧
    ∀ x ∈ changes marker s.rtt,
      s.rtt.stdRadicalGetnext x = .ok ((after x (changes marker s.rtt)).headD NULL) := by
  obtain ⟨hok, hver⟩ := reached_versions hempty hclear h
  refine ⟨fun m hm hmarker => ⟨fun x hx => ?_, hver.nextversion hok hmarker hm⟩, hok.enumerates⟩
  rw [← hver.behind m hm hmarker x hx]
  exact hok.pending m hm hmarker x hx

end

/-- After `sampleChanges` the first walker has the last change of the head 10 before it. -/
theorem marker_versions_sample : ∃ s : ChangeState,
    runSteps ChangeState.step sampleChanges ⟨sampleTable, fun _ => []⟩ = some s ∧
    1 ∈ s.rtt.rttClhead ∧ s.rtt.stdRadicalNextversion 1 = .ok 3 ∧
      ∃ x ∈ unacknowledged (fun p => p < 10) s 1, (s.rtt.heads x).rthVersion = 3 := by
  have hrun : (runSteps ChangeState.step sampleChanges ⟨sampleTable, fun _ => []⟩).map
      (fun s => (s.rtt.rttClhead, (s.rtt.stdRadicalNextversion 1).toOption)) =
        some ([2, 1, 10], some 3) := by decide +kernel
  obtain ⟨s, hs, hend⟩ := Option.map_eq_some_iff.mp hrun
  obtain ⟨hend, hfound⟩ := Prod.mk.inj hend
  have hflags : ∀ x, (sampleTable.heads x).rdclFlags = 0 := fun _ => rfl
  have hreached := Reached.runSteps_of_allMeet
    (fun s op => op.Allowed (fun p => p < 10) s ∧ op.Forward s) sampleChanges .init
    (by decide +kernel) hs
  have hin : 1 ∈ s.rtt.rttClhead := by simp [hend]
  obtain ⟨-, v, hv, -, hleast, -⟩ := (marker_versions rfl
    (fun x _ => by rw [RtHead.isdummy, RtHead.incl, hflags x]; decide) hreached).1 1 hin rfl
  rw [hv] at hfound
  obtain rfl : v = 3 := Option.some.inj hfound
  exact ⟨s, hs, hin, hv, hleast (by decide)⟩

end OpxCommonUtils.Radix
