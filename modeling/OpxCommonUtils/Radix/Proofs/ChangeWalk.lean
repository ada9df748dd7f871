import OpxCommonUtils.Radix.ChangeList

/-!
# What a walk of the change list does

`std_radical_walkchangelist` moves its marker over a piece of the list behind it, and of the
heads in that piece each was handed to the callback once, in order. Nothing else changes but the
version the marker carries.
-/

namespace OpxCommonUtils.Radix

open RtTable

/-- The items of a list that are not markers. -/
def live (heads : Ptr → RtHead) (l : List Ptr) : List Ptr := l.filter fun x => !(heads x).isdummy

section
variable {heads : Ptr → RtHead}

theorem live_append (l l' : List Ptr) : live heads (l ++ l') = live heads l ++ live heads l' :=
  List.filter_append l l'

theorem live_cons_dummy {x : Ptr} (hx : (heads x).isdummy = true) (l : List Ptr) :
    live heads (x :: l) = live heads l := List.filter_cons_of_neg (by simp [hx])

theorem live_cons_head {x : Ptr} (hx : (heads x).isdummy = false) (l : List Ptr) :
    live heads (x :: l) = x :: live heads l := List.filter_cons_of_pos (by simp [hx])

end

/-- The marker sits at `pre ++ front`, in front of `back`, with some version. -/
def RtTable.place (rtt : RtTable) (dummy : Ptr) (v : Nat) (l : List Ptr) : RtTable :=
  (rtt.setVersion dummy v).relink l

namespace RtTable

variable (rtt : RtTable) (dummy : Ptr)

theorem relink_eq_place (l : List Ptr) :
    rtt.relink l = rtt.place dummy (rtt.heads dummy).rthVersion l := by
  simp only [place, relink, setVersion, setHead, mk.injEq, true_and, and_true]
  funext q
  by_cases hq : q = dummy
  · rw [if_pos hq, hq]
  · rw [if_neg hq]

theorem place_place (v v' : Nat) (l l' : List Ptr) :
    (rtt.place dummy v l).place dummy v' l' = rtt.place dummy v' l' := by
  simp only [place, relink, setVersion, setHead, mk.injEq, true_and, and_true]
  funext q
  by_cases hq : q = dummy
  · simp [hq]
  · rw [if_neg hq, if_neg hq, if_neg hq]

@[simp] theorem rttClhead_place (v : Nat) (l : List Ptr) :
    (rtt.place dummy v l).rttClhead = l := rfl

@[simp] theorem rttVersion_place (v : Nat) (l : List Ptr) :
    (rtt.place dummy v l).rttVersion = rtt.rttVersion := rfl

theorem heads_place_ne {x : Ptr} (hx : x ≠ dummy) (v : Nat) (l : List Ptr) :
    (rtt.place dummy v l).heads x = rtt.heads x := if_neg hx

@[simp] theorem isdummy_place (v : Nat) (l : List Ptr) (x : Ptr) :
    ((rtt.place dummy v l).heads x).isdummy = (rtt.heads x).isdummy := by
  by_cases hx : x = dummy
  · simp [place, relink, setVersion, setHead, RtHead.isdummy, hx]
  · rw [heads_place_ne _ _ hx]

theorem live_place (v : Nat) (l l' : List Ptr) :
    live (rtt.place dummy v l).heads l' = live rtt.heads l' := by
  simp [live]

end RtTable

/-- The walk of `dummy` took the heads of `front` and stopped before `back`, with `pre` behind it:
the heads it took are acknowledged at their versions, the calls went through the heads in order,
and it stops before the last head only for a non-zero result, the count, or a head that is newer
than `maxVer`. -/
structure WalkEnds (rtt : RtTable) (dummy : Ptr) (maxnodes : BitVec 32) (maxVer : Nat)
    (pre front back : List Ptr) (w : Walked) : Prop where
  moved : ∃ v, w.rtt = rtt.place dummy v (pre ++ front ++ dummy :: back)
  taken : w.taken = (live rtt.heads front).map fun x => (x, (rtt.heads x).rthVersion)
  calls : w.calls.map ChangeCall.rth <+: live rtt.heads (front ++ back)
  versions : ∀ c ∈ w.calls, c.rthVersion = (rtt.heads c.rth).rthVersion
  stop : live rtt.heads back = [] ∨ w.cbretval ≠ 0 ∨ w.calls.length = maxnodes.toNat ∨
    ∃ x ∈ live rtt.heads back, maxVer < (rtt.heads x).rthVersion

section
variable {rtt : RtTable} {dummy maxVer : Nat} {maxnodes : BitVec 32} {pre post : List Ptr}

/-- A walk over no more items. -/
theorem WalkEnds.stopped {w : Walked} {v : Nat} (cbretval : Int)
    (hw : w = ⟨cbretval, [], rtt.place dummy v (pre ++ dummy :: post)⟩)
    (hstop : live rtt.heads post = [] ∨
      ∃ x ∈ live rtt.heads post, maxVer < (rtt.heads x).rthVersion) :
    WalkEnds rtt dummy maxnodes maxVer pre [] post w := by
  subst hw
  refine ⟨⟨v, by simp⟩, by simp [Walked.taken, live], List.nil_prefix, by simp, ?_⟩
  exact hstop.imp_right fun h => .inr (.inr h)

/-- The walk passes over the marker of another walk. -/
theorem WalkEnds.skip {w : Walked} {x : Ptr} {front back : List Ptr}
    (h : WalkEnds rtt dummy maxnodes maxVer (pre ++ [x]) front back w)
    (hx : (rtt.heads x).isdummy = true) :
    WalkEnds rtt dummy maxnodes maxVer pre (x :: front) back w where
  moved := by
    obtain ⟨v, hv⟩ := h.moved
    exact ⟨v, by simp [hv]⟩
  taken := by rw [h.taken, live_cons_dummy hx]
  calls := by
    rw [List.cons_append, live_cons_dummy hx]
    exact h.calls
  versions := h.versions
  stop := h.stop

/-- One call that took the head `x`, and then the walk `w` from there. -/
theorem WalkEnds.call {w : Walked} {x : Ptr} {v : Nat} {l front back : List Ptr}
    (h : WalkEnds (rtt.place dummy v l) dummy (maxnodes - 1) maxVer (pre ++ [x]) front back w)
    (hx : (rtt.heads x).isdummy = false) (hout : dummy ∉ front ++ back) (hne : x ≠ dummy)
    (hcount : maxnodes ≠ 0) :
    WalkEnds rtt dummy maxnodes maxVer pre (x :: front) back
      { w with calls := ⟨x, (rtt.heads x).rthVersion, 0⟩ :: w.calls } where
  moved := by
    obtain ⟨v', hv'⟩ := h.moved
    exact ⟨v', by simp [hv', place_place]⟩
  taken := by
    have hsame : ∀ y ∈ live rtt.heads front, y ≠ dummy := by
      rintro y hy rfl
      exact hout (List.mem_append_left _ (List.mem_filter.mp hy).1)
    have htaken := h.taken
    rw [live_place, List.map_congr_left (g := fun y => (y, (rtt.heads y).rthVersion))
      fun y hy => by rw [heads_place_ne _ _ (hsame y hy)]] at htaken
    rw [live_cons_head hx, List.map_cons, ← htaken]
    simp [Walked.taken]
  calls := by
    have hcalls := h.calls
    rw [live_place] at hcalls
    rw [List.cons_append, live_cons_head hx]
    exact (List.prefix_cons_inj x).mpr hcalls
  versions c hc := by
    rcases List.mem_cons.mp hc with rfl | hc
    · rfl
    · have hmem := h.calls.subset (List.mem_map_of_mem hc)
      rw [live_place] at hmem
      have hne' : c.rth ≠ dummy := by
        rintro heq
        exact hout (heq ▸ (List.mem_filter.mp hmem).1)
      rw [h.versions c hc, heads_place_ne _ _ hne']
  stop := by
    have hstop := h.stop
    rw [live_place] at hstop
    have hnat : maxnodes.toNat = (maxnodes - 1).toNat + 1 := by
      have hpos : maxnodes.toNat ≠ 0 := fun h0 => hcount (BitVec.eq_of_toNat_eq (by simpa using h0))
      rw [BitVec.toNat_sub_of_le (by rw [BitVec.le_def]; simp; omega)]
      simp
      omega
    refine hstop.imp_right (Or.imp_right (Or.imp (fun hlen => ?_) ?_))
    · rw [hnat, List.length_cons, hlen]
    · rintro ⟨y, hy, hlt⟩
      have hne' : y ≠ dummy := by
        rintro rfl
        exact hout (List.mem_append_right _ (List.mem_filter.mp hy).1)
      rw [heads_place_ne _ _ hne'] at hlt
      exact ⟨y, hy, hlt⟩

/-- The call that ends the walk. -/
theorem WalkEnds.last {w : Walked} {x : Ptr} {v : Nat} {result : Int}
    (hx : (rtt.heads x).isdummy = false) (hpos : 0 ≤ result)
    (hw : w = ⟨result, [⟨x, (rtt.heads x).rthVersion, result⟩],
      rtt.place dummy v (pre ++ x :: dummy :: post)⟩)
    (hstop : result ≠ 0 ∨ maxnodes.toNat = 1) :
    WalkEnds rtt dummy maxnodes maxVer pre [x] post w := by
  subst hw
  refine ⟨⟨v, by simp⟩, ?_, ?_, by simp, ?_⟩
  · rw [live_cons_head hx]
    simp [Walked.taken, hpos, live]
  · rw [List.cons_append, live_cons_head hx]
    exact ⟨live rtt.heads post, by simp⟩
  · rcases hstop with h | h
    · exact .inr (.inl h)
    · exact .inr (.inr (.inl h.symm))

/-- The call that asks to see the head again. -/
theorem WalkEnds.again {w : Walked} {x : Ptr} {v : Nat} {result : Int}
    (hx : (rtt.heads x).isdummy = false) (hneg : result < 0)
    (hw : w = ⟨result, [⟨x, (rtt.heads x).rthVersion, result⟩],
      rtt.place dummy v (pre ++ dummy :: x :: post)⟩) :
    WalkEnds rtt dummy maxnodes maxVer pre [] (x :: post) w := by
  subst hw
  refine ⟨⟨v, by simp⟩, ?_, ?_, by simp, .inr (.inl (by dsimp only; omega))⟩
  · simp [Walked.taken, live, hneg]
  · rw [List.nil_append, live_cons_head hx]
    exact ⟨live rtt.heads post, by simp⟩

end

/-- The loop of a walk, from the item in front of `post`: it ends, and as a walk does. -/
theorem walkLoop_spec (walkFn : Nat → Ptr → Int) (dummy : Ptr) (maxVer : Nat) (fuel : Nat) :
    ∀ (rtt : RtTable) (i : Nat) (maxnodes : BitVec 32) (cbretval : Int) (pre post : List Ptr),
      post.length < fuel → rtt.rttClhead = pre ++ post → (pre ++ post).Nodup →
      NULL ∉ post → dummy ∉ pre ++ post → maxnodes ≠ 0 →
      Delivers (walkLoop walkFn dummy maxVer fuel rtt i maxnodes (post.headD NULL) cbretval)
        fun w => ∃ front back, post = front ++ back ∧
          WalkEnds rtt dummy maxnodes maxVer pre front back w := by
  induction fuel with
  | zero => intro _ _ _ _ _ _ hlen; omega
  | succ fuel ih =>
    intro rtt i maxnodes cbretval pre post hlen hlist hnodup hnull hout hcount
    rw [walkLoop]
    cases post with
    | nil =>
      rw [List.headD_nil, if_pos rfl]
      refine delivers_ok.mpr ⟨[], [], rfl, .stopped cbretval (v := rtt.rttVersion) ?_ (.inl rfl)⟩
      have hlist' : (rtt.setVersion dummy rtt.rttVersion).rttClhead = pre ++ [] := hlist
      rw [hlist', List.append_nil]
      rfl
    | cons x post =>
      obtain ⟨-, hnodup', hdisj⟩ := List.nodup_append.mp hnodup
      have hxpre : x ∉ pre := fun h => hdisj x h x (by simp) rfl
      have hx0 : x ≠ NULL := fun h => hnull (by simp [h])
      have hxd : x ≠ dummy := fun h => hout (by simp [h])
      have hdpre : dummy ∉ pre ++ [x] := fun h => hout (by
        rcases List.mem_append.mp h with h | h
        · exact List.mem_append_left _ h
        · exact List.mem_append_right _ (List.mem_singleton.mp h ▸ List.mem_cons_self))
      have hout' : dummy ∉ (pre ++ [x]) ++ post := by simpa using hout
      have hnull' : NULL ∉ post := fun h => hnull (List.mem_cons_of_mem _ h)
      have hnodup₁ : ((pre ++ [x]) ++ post).Nodup := by simpa using hnodup
      have hlen' : post.length < fuel := by simpa using hlen
      rw [List.headD_cons, if_neg hx0]
      by_cases hdummy : (rtt.heads x).isdummy = true
      · rw [if_pos hdummy, hlist, stdDllGetnext, after_append_cons _ hxpre]
        refine (ih rtt i maxnodes cbretval (pre ++ [x]) post hlen' (by simpa using hlist) hnodup₁
          hnull' hout' hcount).mono ?_
        rintro w ⟨front, back, rfl, hends⟩
        exact ⟨x :: front, back, rfl, hends.skip hdummy⟩
      · have hlive : (rtt.heads x).isdummy = false := by simpa using hdummy
        rw [if_neg hdummy]
        by_cases hnew : maxVer < (rtt.heads x).rthVersion
        · rw [if_pos hnew]
          refine delivers_ok.mpr ⟨[], x :: post, rfl, .stopped cbretval (v := maxVer)
            ?_ (.inr ⟨x, by simp [live_cons_head hlive], hnew⟩)⟩
          have hlist' : (rtt.setVersion dummy maxVer).rttClhead = pre ++ x :: post := hlist
          rw [hlist', insertBefore_append_cons _ _ hxpre]
          rfl
        · have herase : (pre ++ x :: dummy :: post).erase dummy = pre ++ x :: post := by
            simpa using erase_append_cons post hdpre
          have hnext : stdDllGetnext (pre ++ x :: dummy :: post) dummy = post.headD NULL := by
            have hafter := after_append_cons post hdpre
            rw [List.append_assoc, List.singleton_append] at hafter
            rw [stdDllGetnext, hafter]
          rw [if_neg hnew, hlist, insertAfter_append_cons _ _ hxpre]
          dsimp only
          rcases lt_trichotomy (walkFn i x) 0 with hneg | hzero | hpos
          · have hlinked : (rtt.relink (pre ++ x :: dummy :: post)).islinked x = true := by
              simp [islinked, relink]
            have hlist' : (rtt.relink (pre ++ x :: dummy :: post)).rttClhead.erase dummy =
                pre ++ x :: post := herase
            rw [if_neg (Int.not_le.mpr hneg), if_pos hneg, hlinked, assertThat_true, exec_bind_ok,
              hlist', insertBefore_append_cons _ _ hxpre]
            refine delivers_ok.mpr ⟨[], x :: post, rfl, .again
              (v := (rtt.heads dummy).rthVersion) hlive hneg ?_⟩
            rw [← relink_eq_place]
            rfl
          · rw [hzero, if_pos le_rfl, if_neg (lt_irrefl 0), if_neg (not_not.mpr rfl)]
            by_cases hstop : maxnodes - 1 = 0
            · have hone : maxnodes.toNat = 1 := by
                rw [show maxnodes = 1 by simpa [BitVec.sub_eq_iff_eq_add] using hstop]
                rfl
              rw [if_pos hstop]
              exact delivers_ok.mpr ⟨[x], post, rfl, .last hlive le_rfl rfl (.inr hone)⟩
            · rw [if_neg hstop]
              have hlist' : ((rtt.relink (pre ++ x :: dummy :: post)).setVersion dummy
                  (rtt.heads x).rthVersion).rttClhead = pre ++ x :: dummy :: post := rfl
              rw [hlist', herase, hnext]
              refine Delivers.bind (ih (rtt.place dummy (rtt.heads x).rthVersion
                (pre ++ x :: post))
                (i + 1) (maxnodes - 1) 0 (pre ++ [x]) post hlen' (by simp) hnodup₁ hnull' hout'
                hstop) ?_
              rintro w ⟨front, back, rfl, hends⟩
              have hsplit : dummy ∉ front ++ back := fun h => hout' (List.mem_append_right _ h)
              exact delivers_ok.mpr ⟨x :: front, back, rfl, hends.call hlive hsplit hxd hcount⟩
          · rw [if_pos hpos.le, if_neg (Int.not_lt.mpr hpos.le), if_pos hpos.ne']
            exact delivers_ok.mpr ⟨[x], post, rfl, .last hlive hpos.le rfl (.inl hpos.ne')⟩

end OpxCommonUtils.Radix
