import OpxCommonUtils.Radix.Proofs.ChangeWalk
import Mathlib.Data.Finset.Card
import Mathlib.Data.Finset.Range

/-!
# Repainting the versions of the change list

`std_radical_procverwrap` numbers the heads of the list in its order, and gives every marker the
number of the heads before it. So the versions tell again which heads a marker has still to visit.
-/

namespace OpxCommonUtils.Radix

open RtTable

/-- The items of a list in memory: different objects, none at `NULL`, at addresses of 64 bits. -/
structure InMemory (l : List Ptr) : Prop where
  nodup : l.Nodup
  null : NULL ∉ l
  width : ∀ p ∈ l, p < 2 ^ 64

/-- There is no room for as many items as there are versions. -/
theorem InMemory.length_lt {l : List Ptr} (h : InMemory l) : l.length < 2 ^ 64 := by
  have hsub : l.toFinset ⊆ (Finset.range (2 ^ 64)).erase 0 := by
    intro p hp
    have hmem := List.mem_toFinset.mp hp
    apply Finset.mem_erase.mpr
    constructor
    · rintro rfl
      exact h.null hmem
    · exact Finset.mem_range.mpr (h.width p hmem)
  have hcard := Finset.card_le_card hsub
  rw [List.toFinset_card_of_nodup h.nodup,
    Finset.card_erase_of_mem (Finset.mem_range.mpr (by decide)), Finset.card_range] at hcard
  omega

/-- The number of heads before an item. -/
def headsBefore (heads : Ptr → RtHead) (pre : List Ptr) : Nat := (live heads pre).length

/-- The version the item behind `pre` is painted with. -/
def painted (heads : Ptr → RtHead) (pre : List Ptr) (item : Ptr) : Nat :=
  headsBefore heads pre + if (heads item).isdummy then 0 else 1

/-- One round of the loop. -/
theorem headsBefore_snoc (heads : Ptr → RtHead) (pre : List Ptr) (item : Ptr) :
    headsBefore heads (pre ++ [item]) = painted heads pre item := by
  rw [headsBefore, painted, headsBefore, live_append, List.length_append]
  cases hitem : (heads item).isdummy with
  | true => rw [live_cons_dummy hitem]; rfl
  | false => rw [live_cons_head hitem]; rfl

theorem headsBefore_le (heads : Ptr → RtHead) (pre : List Ptr) :
    headsBefore heads pre ≤ pre.length := List.length_filter_le _ _

theorem painted_congr {heads heads' : Ptr → RtHead}
    (h : ∀ x, (heads' x).isdummy = (heads x).isdummy) (pre : List Ptr) (item : Ptr) :
    painted heads' pre item = painted heads pre item := by
  have hlive : live heads' pre = live heads pre := by simp only [live, h]
  rw [painted, painted, headsBefore, headsBefore, hlive, h]

/-- `heads'` are the heads after the items of `rest`, which stands behind `pre`, were painted. -/
structure Painted (heads : Ptr → RtHead) (pre rest : List Ptr) (heads' : Ptr → RtHead) : Prop where
  version : ∀ a item b, rest = a ++ item :: b →
    (heads' item).rthVersion = painted heads (pre ++ a) item
  only : ∀ p, heads' p = { heads p with rthVersion := (heads' p).rthVersion }
  other : ∀ p ∉ rest, heads' p = heads p

namespace Painted

variable {heads heads' : Ptr → RtHead} {pre rest : List Ptr}

theorem nil (heads : Ptr → RtHead) (pre : List Ptr) : Painted heads pre [] heads where
  version a item b heq := by simp at heq
  only _ := rfl
  other _ _ := rfl

/-- The item in front was painted before the others. -/
theorem cons {rtt : RtTable} {item : Ptr} (hitem : item ∉ rest)
    (h : Painted (rtt.setVersion item (painted rtt.heads pre item)).heads (pre ++ [item]) rest
      heads') : Painted rtt.heads pre (item :: rest) heads' := by
  have hsame : ∀ x, ((rtt.setVersion item (painted rtt.heads pre item)).heads x).isdummy =
      (rtt.heads x).isdummy := isdummy_place rtt item _ rtt.rttClhead
  have hfirst : heads' item = { rtt.heads item with rthVersion := painted rtt.heads pre item } := by
    rw [h.other item hitem]
    exact if_pos rfl
  have hother : ∀ p, p ≠ item →
      (rtt.setVersion item (painted rtt.heads pre item)).heads p = rtt.heads p :=
    fun p hp => if_neg hp
  constructor
  · intro a x b heq
    cases a with
    | nil =>
      obtain ⟨rfl, -⟩ := List.cons.inj heq
      rw [hfirst, List.append_nil]
    | cons y a =>
      obtain ⟨rfl, htail⟩ := List.cons.inj heq
      rw [h.version a x b htail, painted_congr hsame, List.append_assoc]
      rfl
  · intro p
    by_cases hp : p = item
    · rw [hp, hfirst]
    · rw [← hother p hp]
      exact h.only p
  · intro p hp
    rw [List.mem_cons, not_or] at hp
    rw [h.other p hp.2, hother p hp.1]

end Painted

/-- The loop from the item behind `pre` on. -/
theorem procverwrapLoop_spec (fuel : Nat) : ∀ (rtt : RtTable) (pre rest : List Ptr),
    rest.length < fuel → rtt.rttClhead = pre ++ rest → InMemory (pre ++ rest) →
    ∃ heads', procverwrapLoop fuel rtt (rest.headD NULL) (headsBefore rtt.heads pre) =
        .ok (headsBefore rtt.heads (pre ++ rest), { rtt with heads := heads' }) ∧
      Painted rtt.heads pre rest heads' := by
  induction fuel with
  | zero => intro rtt pre rest hlen; omega
  | succ fuel ih =>
    intro rtt pre rest hlen hlist hlinked
    cases rest with
    | nil =>
      refine ⟨rtt.heads, ?_, .nil rtt.heads pre⟩
      rw [procverwrapLoop, List.headD_nil, if_pos rfl, List.append_nil]
      rfl
    | cons item rest =>
      obtain ⟨-, hnodup, hdisj⟩ := List.nodup_append.mp hlinked.nodup
      have hpre : item ∉ pre := fun h => hdisj item h item List.mem_cons_self rfl
      have hne : item ≠ NULL := by
        rintro rfl
        exact hlinked.null (by simp)
      -- the version of this round, which has not come to 2^64
      have hversion : (if (rtt.heads item).isdummy then headsBefore rtt.heads pre
          else (headsBefore rtt.heads pre + 1) % 2 ^ 64) = painted rtt.heads pre item := by
        rw [painted]
        split
        · rfl
        · have hbefore := headsBefore_le rtt.heads pre
          have hroom := hlinked.length_lt
          rw [List.length_append, List.length_cons] at hroom
          exact Nat.mod_eq_of_lt (by omega)
      have hnext : stdDllGetnext rtt.rttClhead item = rest.headD NULL := by
        rw [hlist, stdDllGetnext, after_append_cons rest hpre]
      have hsame : ∀ l, headsBefore (rtt.setVersion item (painted rtt.heads pre item)).heads l =
          headsBefore rtt.heads l :=
        fun l => congrArg List.length (live_place rtt item _ rtt.rttClhead l)
      have happend : (pre ++ [item]) ++ rest = pre ++ item :: rest := by simp
      obtain ⟨heads', hloop, hpainted⟩ := ih (rtt.setVersion item (painted rtt.heads pre item))
        (pre ++ [item]) rest (by simpa using hlen) (by rw [happend]; exact hlist)
        (by rw [happend]; exact hlinked)
      rw [hsame, hsame, headsBefore_snoc, happend] at hloop
      refine ⟨heads', ?_, hpainted.cons (List.nodup_cons.mp hnodup).1⟩
      rw [procverwrapLoop, List.headD_cons, if_neg hne, hversion]
      dsimp only
      rw [show (rtt.setVersion item (painted rtt.heads pre item)).rttClhead = rtt.rttClhead from rfl,
        hnext]
      exact hloop

/-! ## Result -/

/-- The heads have the versions that follow each other. -/
theorem versions_range {heads heads' : Ptr → RtHead} {pre rest : List Ptr}
    (h : ∀ a item b, rest = a ++ item :: b →
      (heads' item).rthVersion = painted heads (pre ++ a) item) :
    (live heads rest).map (fun x => (heads' x).rthVersion) =
      List.range' (headsBefore heads pre + 1) (live heads rest).length := by
  induction rest generalizing pre with
  | nil => rfl
  | cons item rest ih =>
    have hfirst := h [] item rest rfl
    have hrest : (live heads rest).map (fun x => (heads' x).rthVersion) =
        List.range' (headsBefore heads (pre ++ [item]) + 1) (live heads rest).length := by
      apply ih
      intro a x b heq
      rw [h (item :: a) x b (by rw [heq]; rfl), List.append_assoc]
      rfl
    rw [headsBefore_snoc] at hrest
    rw [List.append_nil] at hfirst
    cases hitem : (heads item).isdummy with
    | true =>
      rw [painted, hitem, if_pos rfl, Nat.add_zero] at hrest
      rw [live_cons_dummy hitem, hrest]
    | false =>
      rw [painted, hitem, if_neg Bool.false_ne_true] at hfirst hrest
      rw [live_cons_head hitem, List.map_cons, hfirst, hrest, List.length_cons, List.range'_succ]

/-- A head is newer than a marker exactly if it stands behind it. -/
theorem painted_lt_iff {heads heads' : Ptr → RtHead} {l : List Ptr} (hnodup : l.Nodup)
    (h : ∀ a item b, l = a ++ item :: b → (heads' item).rthVersion = painted heads a item)
    {rth dummy : Ptr} (hrth : rth ∈ live heads l) (hmem : dummy ∈ l)
    (hdummy : (heads dummy).isdummy = true) :
    (heads' dummy).rthVersion < (heads' rth).rthVersion ↔ rth ∈ after dummy l := by
  obtain ⟨hin, hhead⟩ := List.mem_filter.mp hrth
  have hlive : (heads rth).isdummy = false := by simpa using hhead
  obtain ⟨pre, post, rfl⟩ := List.append_of_mem hmem
  obtain ⟨-, hnodup', hdisj⟩ := List.nodup_append.mp hnodup
  have hpre : dummy ∉ pre := fun hd => hdisj dummy hd dummy List.mem_cons_self rfl
  have hmarker := h pre dummy post rfl
  rw [painted, hdummy, if_pos rfl, Nat.add_zero] at hmarker
  rw [after_append_cons post hpre, hmarker]
  rcases List.mem_append.mp hin with hbefore | hbehind
  · obtain ⟨a, b, rfl⟩ := List.append_of_mem hbefore
    have hversion := h a rth (b ++ dummy :: post) (by simp)
    have hle : headsBefore heads (a ++ [rth]) ≤ headsBefore heads (a ++ rth :: b) := by
      rw [headsBefore, headsBefore, live_append, live_append, live_cons_head hlive,
        live_cons_head hlive]
      simp [live]
    rw [headsBefore_snoc, ← hversion] at hle
    have hnot : rth ∉ post := fun hr => hdisj rth hbefore rth (List.mem_cons_of_mem _ hr) rfl
    constructor
    · intro hlt
      omega
    · intro hr
      exact absurd hr hnot
  · have hne : rth ≠ dummy := by
      rintro rfl
      rw [hlive] at hdummy
      cases hdummy
    have hpost := (List.mem_cons.mp hbehind).resolve_left hne
    obtain ⟨a, b, rfl⟩ := List.append_of_mem hpost
    have hversion := h (pre ++ dummy :: a) rth b (by simp)
    rw [painted, hlive, if_neg Bool.false_ne_true, headsBefore, live_append, List.length_append]
      at hversion
    constructor
    · intro hlt
      exact hpost
    · intro hr
      rw [hversion, headsBefore]
      omega

/-- The versions after a wrap: the heads have 1, 2, … in the order of the list, a marker has the
number of the heads before it, and so exactly the heads behind a marker are newer than it. -/
theorem procverwrap_repaints (rtt : RtTable) (h : InMemory rtt.rttClhead) :
    ∃ heads', rtt.stdRadicalProcverwrap =
        .ok ((live rtt.heads rtt.rttClhead).length, { rtt with heads := heads' }) ∧
      (∀ p, heads' p = { rtt.heads p with rthVersion := (heads' p).rthVersion }) ∧
      (∀ p ∉ rtt.rttClhead, heads' p = rtt.heads p) ∧
      (live rtt.heads rtt.rttClhead).map (fun x => (heads' x).rthVersion) =
        List.range' 1 (live rtt.heads rtt.rttClhead).length ∧
      (∀ pre dummy post, rtt.rttClhead = pre ++ dummy :: post →
        (rtt.heads dummy).isdummy = true →
          (heads' dummy).rthVersion = (live rtt.heads pre).length) ∧
      ∀ rth ∈ live rtt.heads rtt.rttClhead, ∀ dummy ∈ rtt.rttClhead,
        (rtt.heads dummy).isdummy = true →
          ((heads' dummy).rthVersion < (heads' rth).rthVersion ↔
            rth ∈ after dummy rtt.rttClhead) := by
  obtain ⟨heads', hloop, hpainted⟩ := procverwrapLoop_spec (rtt.rttClhead.length + 1) rtt []
    rtt.rttClhead (Nat.lt_succ_self _) rfl h
  have hversion := hpainted.version
  refine ⟨heads', hloop, hpainted.only, hpainted.other, versions_range hversion, ?_, ?_⟩
  · intro pre dummy post heq hdummy
    rw [hversion pre dummy post heq, painted, hdummy, if_pos rfl, Nat.add_zero]
    rfl
  · intro rth hrth dummy hmem hdummy
    exact painted_lt_iff h.nodup hversion hrth hmem hdummy

/-- Two markers at the front, one between two heads, and one behind them, with versions from before
the wrap. -/
def sampleWrapped : RtTable :=
  { stdRadixCreate 32 true fun p =>
      { (default : RtHead) with
        rthVersion := 2 ^ 64 - p
        rdclFlags := if p ≤ 4 then RDCL_DUMMY else RDCL_INCL } with
    rttClhead := [1, 2, 8, 3, 9, 4] }

theorem procverwrap_repaints_sample : ∃ heads',
    sampleWrapped.stdRadicalProcverwrap = .ok (2, { sampleWrapped with heads := heads' }) ∧
      (heads' 8).rthVersion = 1 ∧ (heads' 9).rthVersion = 2 ∧ (heads' 3).rthVersion = 1 ∧
      ((heads' 3).rthVersion < (heads' 9).rthVersion ↔ 9 ∈ after 3 sampleWrapped.rttClhead) := by
  have hlinked : InMemory sampleWrapped.rttClhead := ⟨by decide, by decide, by decide⟩
  obtain ⟨heads', hrun, -, -, hversions, hmarkers, hlt⟩ :=
    procverwrap_repaints sampleWrapped hlinked
  have hlive : live sampleWrapped.heads sampleWrapped.rttClhead = [8, 9] := by decide
  rw [hlive] at hrun hversions
  simp only [List.map_cons, List.map_nil] at hversions
  injection hversions with h8 hrest
  injection hrest with h9
  refine ⟨heads', hrun, h8, h9, ?_, hlt 9 (by decide) 3 (by decide) (by decide)⟩
  exact hmarkers [1, 2, 8] 3 [9, 4] rfl (by decide)

end OpxCommonUtils.Radix
