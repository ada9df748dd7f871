import OpxCommonUtils.Misc.Resume
import OpxCommonUtils.Radix.Proofs.FullWalk

/-!
# Resuming a full walk

A walk that has made its last call goes on to the left child before it stops, so the head it hands
back is that of the left child when there is one. A walk resumed from there leaves out this head and
what is to the left below it; if the left child has no head, the user takes the walk for finished.
-/

namespace OpxCommonUtils.Radix

open Tree Trie LinkTree

/-- The user resumes a walk from the head it handed back until that is `NULL`: all calls. -/
def resumeWalk (rtt : RtTable) (counts : Nat → Int) : Nat → Nat → Ptr → Exec (List Ptr) :=
  resume fun k rth => rtt.stdRadixWalk rth (some fun _ _ => 0) (counts k)

/-- No stored prefix begins with `K` and a 0 bit. -/
def PrefixMap.NoLeft (M : PrefixMap) (K : List Bool) : Prop :=
  ∀ K', M K' ≠ none → ¬ K ++ [false] <+: K'

/-- No prefix to the left goes on at the head with which the call `k` is to end. -/
def EndsWell (M : PrefixMap) (L : List (List Bool × Ptr)) (counts : Nat → Int) (k : Nat) : Prop :=
  ∀ K rth, L[total counts (k + 1) - 1]? = some (K, rth) → M.NoLeft K

section Stop

variable (nodes : Heap RtNode)

/-- With fewer heads than calls to go the walk comes to its end. -/
theorem visits_end {cells : List (Ptr × RtVal)} : ∀ {lcnt : Nat} {calls : List Ptr},
    (headsOf cells).length < lcnt →
      visits nodes (fun _ _ => 0) lcnt calls cells = (NULL, calls ++ headsOf cells) := by
  induction cells with
  | nil => simp [visits, headsOf]
  | cons x cells ih =>
    intro lcnt calls hlt
    by_cases h0 : x.2.rth = NULL
    · rw [headsOf_cons_null cells h0] at hlt ⊢
      rw [visits, if_pos h0]
      exact ih hlt
    · rw [headsOf_cons cells h0] at hlt ⊢
      rw [List.length_cons] at hlt
      rw [visits, if_neg h0, if_neg (by simp; omega), ih (by omega), List.append_assoc,
        List.singleton_append]

/-- Otherwise it stops at the place of the last of these heads. -/
theorem exists_stop (x : Place RtVal) : ∀ {lcnt : Nat} (calls : List Ptr), 0 < lcnt →
    lcnt ≤ (headsOf x.rest).length → ∃ (y : Place RtVal) (before : List Ptr),
      y.whole = x.whole ∧ y.heading = .down ∧ y.val.rth ≠ NULL ∧ before.length + 1 = lcnt ∧
      headsOf x.rest = before ++ y.val.rth :: headsOf y.goLeft.rest ∧
      visits nodes (fun _ _ => 0) lcnt calls x.rest =
        (stopHead nodes y.ptr, calls ++ (before ++ [y.val.rth])) := by
  induction x using Place.tour_induction with
  | hdown x hheading ih =>
    intro lcnt calls hpos hle
    rw [Place.rest_down hheading] at hle ⊢
    by_cases h0 : x.val.rth = NULL
    · rw [headsOf_cons_null _ h0] at hle ⊢
      obtain ⟨y, before, hy, hrest⟩ := ih calls hpos hle
      rw [Place.whole_goLeft] at hy
      rw [visits, if_pos h0]
      exact ⟨y, before, hy, hrest⟩
    · rw [headsOf_cons _ h0] at hle ⊢
      rw [visits, if_neg h0]
      by_cases hone : lcnt = 1
      · refine ⟨x, [], rfl, hheading, h0, by simp [hone], rfl, ?_⟩
        rw [if_pos (.inr hone)]
        rfl
      · rw [List.length_cons] at hle
        obtain ⟨y, before, hy, hdown, hrth, hlen, hsplit, hvisits⟩ :=
          @ih (lcnt - 1) (calls ++ [x.val.rth]) (by omega) (by omega)
        rw [Place.whole_goLeft] at hy
        refine ⟨y, x.val.rth :: before, hy, hdown, hrth, ?_, by rw [hsplit]; rfl, ?_⟩
        · rw [List.length_cons]
          omega
        · rw [if_neg (by simp [hone]), hvisits, List.append_assoc]
          rfl
  | hright x hheading ih =>
    intro lcnt calls hpos hle
    rw [← Place.rest_right hheading] at hle ⊢
    obtain ⟨y, before, hy, hrest⟩ := ih calls hpos hle
    rw [Place.whole_goRight] at hy
    exact ⟨y, before, hy, hrest⟩
  | hup x f c hheading hctx ih =>
    intro lcnt calls hpos hle
    rw [← Place.rest_up hheading hctx] at hle ⊢
    obtain ⟨y, before, hy, hrest⟩ := ih calls hpos hle
    rw [Place.whole_goUp hctx] at hy
    exact ⟨y, before, hy, hrest⟩
  | hend x hheading hctx =>
    intro lcnt calls hpos hle
    rw [Place.rest_end hheading hctx] at hle
    simp [headsOf] at hle
    omega

end Stop

/-- A walk from the head `rth`, or from the beginning, comes to `cells`. -/
def WalksFrom (rtt : RtTable) (rth : Ptr) (cells : List (Ptr × RtVal)) : Prop :=
  ∀ cnt : Int, 0 < cnt → cnt < 2 ^ 31 → rtt.stdRadixWalk rth (some fun _ _ => 0) cnt =
    .ok (visits rtt.nodes (fun _ _ => 0) cnt.toNat [] cells)

/-- What a tour of the tree has yet to come to. -/
def OnTour (t : Tree RtVal) (cells : List (Ptr × RtVal)) : Prop :=
  cells = [] ∨ ∃ x : Place RtVal, x.whole = t ∧ x.rest = cells

theorem Shape.mem_place {t : Tree RtVal} {x : Place RtVal} (hx : x.whole = t) :
    (x.ptr, x.val) ∈ t.pre := by
  rw [← hx, Place.whole, mem_pre_plug]
  exact .inl (by simp [Place.here, pre])

/-- A walk from a head begins to the right of its node. -/
theorem Shape.walksFrom_place {rtt : RtTable} {t : Tree RtVal} {x : Place RtVal}
    (hs : Shape rtt t) (hx : x.whole = t) (hright : x.heading = .right) (h0 : x.val.rth ≠ NULL) :
    WalksFrom rtt x.val.rth x.rest := by
  intro cnt hpos hlt
  have hrtn : (rtt.heads x.val.rth).rthRtn = x.ptr := (hs.linked _ (mem_place hx)).rtn h0
  have hlcnt : (cnt % 2 ^ 64).toNat = cnt.toNat := by
    rw [Int.emod_eq_of_lt hpos.le (by omega)]
  have hsize := hs.holds.size_le
  have hrounds := x.rounds_le
  rw [hx] at hrounds
  rw [RtTable.stdRadixWalk, if_neg h0, hrtn, if_neg (hs.place_ne_null hx), if_neg hpos.ne', hlcnt]
  exact hs.loop_spec _ _ x ⟨x.ptr, .walkright, cnt.toNat, []⟩ hx rfl (by rw [hright]; rfl)
    (by dsimp only; omega) (by omega)

namespace Refines

variable {rtt : RtTable} {t : Tree RtVal} {M : PrefixMap}

theorem walksFrom_null (h : Refines rtt t M) : WalksFrom rtt NULL t.pre := by
  intro cnt hpos hlt
  have hwalk := h.stdRadixWalk_spec (fun _ _ => 0) ⟨hpos.le, hlt⟩
  rwa [if_neg hpos.ne'] at hwalk

/-- A head has a left child below it if and only if a stored prefix goes on to the left. -/
theorem noLeft_iff (h : Refines rtt t M) {x : Place RtVal} (hx : x.whole = t) {K : List Bool}
    (hM : M K = some x.val.rth) : M.NoLeft K ↔ x.left = .nil := by
  have hplug : plug (⟨.left, x.ptr, x.val, x.right⟩ :: x.ctx) x.left = t := hx
  obtain ⟨K₀, hin, hM₀⟩ := h.exists_key (Shape.mem_place hx) (h.ne_null hM)
  obtain rfl := h.head_inj hM₀ hM
  have hwf := h.shape.wf
  rw [← hplug] at hwf
  obtain ⟨k, hc, hleft⟩ := hwf.split
  obtain ⟨key, rfl, hkey⟩ : ∃ key, k = key ++ [false] ∧
      ∀ e, (view rtt.heads).key x.val = some e → e = key := by
    cases hc with
    | cons _ _ _ h3 _ _ => exact ⟨_, rfl, h3⟩
  obtain rfl := hkey _ (mem_entries.mp hin).2
  constructor
  · intro hno
    by_contra hne
    obtain ⟨⟨K', y⟩, he⟩ := hleft.exists_entry hne
    have hmem : (K', y) ∈ entries (view rtt.heads) t := by
      rw [← hplug, entries_plug]
      simp [he]
    exact hno K' (h.ne_none_iff.mpr ⟨y, hmem⟩) (hleft.key_isPrefix he).1
  · intro hnil K' hK' hpre
    obtain ⟨y, hy⟩ := h.ne_none_iff.mp hK'
    rw [← hplug] at hy
    have hhole := hc.mem_hole hpre hy
    rw [hnil] at hhole
    simp at hhole

/-- A head is a good one for a walk to end with: no stored prefix goes on to the left of it. -/
def GoodEnd (M : PrefixMap) (rth : Ptr) : Prop := ∀ K, M K = some rth → M.NoLeft K

/-- The heads that a walk from `rth` has to come to. -/
def HeadsFrom (rtt : RtTable) (t : Tree RtVal) (rth : Ptr) (rths : List Ptr) : Prop :=
  ∃ cells, WalksFrom rtt rth cells ∧ OnTour t cells ∧ headsOf cells = rths

/-- Below every node there are heads. -/
theorem headsOf_ne_nil (h : Refines rtt t M) {x : Place RtVal} (hx : x.whole = t)
    (hdown : x.heading = .down) : headsOf x.rest ≠ [] := by
  have hwf := h.shape.wf
  rw [← hx, Place.whole] at hwf
  obtain ⟨k, -, hhere⟩ := hwf.split
  obtain ⟨⟨K, y⟩, hy⟩ := hhere.exists_entry (by simp [Place.here])
  have hmem : (K, y) ∈ entries (view rtt.heads) t := by
    rw [← hx, Place.whole, entries_plug]
    simp [hy]
  have h0 : y.2.rth ≠ NULL := h.ne_null ((h.stored K _).mpr ⟨y, hmem, rfl⟩)
  have hcell : y ∈ x.rest := by
    rw [Place.rest, hdown]
    exact List.mem_append_left _ (mem_entries.mp hy).1
  intro hnil
  have hhead : y.2.rth ∈ headsOf x.rest := by
    rw [headsOf, List.mem_map]
    exact ⟨y, List.mem_filter.mpr ⟨hcell, by simpa using h0⟩, rfl⟩
  rw [hnil] at hhead
  simp at hhead

theorem walk_ends (h : Refines rtt t M) {rth : Ptr} {rths : List Ptr}
    (hfrom : HeadsFrom rtt t rth rths) {cnt : Int} (hpos : 0 < cnt) (hlt : cnt < 2 ^ 31) :
    ∃ next calls, rtt.stdRadixWalk rth (some fun _ _ => 0) cnt = .ok (next, calls) ∧
      CallEnds (GoodEnd M) (HeadsFrom rtt t) cnt.toNat rths next calls := by
  obtain ⟨cells, hwalks, hplace, rfl⟩ := hfrom
  rw [hwalks cnt hpos hlt]
  rcases Nat.lt_or_ge (headsOf cells).length cnt.toNat with hall | hle
  · rw [visits_end _ hall]
    exact ⟨_, _, rfl, .all hall⟩
  · rcases hplace with rfl | ⟨x, hx, rfl⟩
    · simp [headsOf] at hle
      omega
    · obtain ⟨y, before, hy, hdown, h0, hlen, hsplit, hvisits⟩ :=
        exists_stop rtt.nodes x [] (by omega) hle
      have hwhole : y.whole = t := hy.trans hx
      rw [hvisits, hsplit, List.nil_append, h.shape.stopHead_place hwhole]
      refine ⟨_, _, rfl, ?_⟩
      by_cases hleft : y.left = .nil
      · rw [Place.goLeft_nil hleft]
        let z : Place RtVal := { y with heading := .right }
        exact .next hlen (fun K hK => (h.noLeft_iff hwhole hK).mpr hleft) h0
          ⟨z.rest, h.shape.walksFrom_place (x := z) hwhole rfl h0, .inr ⟨z, hwhole, rfl⟩, rfl⟩
      · have hnext : y.goLeft.whole = t := (Place.whole_goLeft y).trans hwhole
        have hdown' := (Place.goLeft_of_ne hleft NULL).2
        refine .short hlen (fun hgood => ?_) (h.headsOf_ne_nil hnext hdown') fun hne => ?_
        · obtain ⟨K, -, hK⟩ := h.exists_key (Shape.mem_place hwhole) h0
          exact hleft ((h.noLeft_iff hwhole hK).mp (hgood K hK))
        · let z : Place RtVal := { y.goLeft with heading := .right }
          refine ⟨_, ⟨z.rest, h.shape.walksFrom_place (x := z) hnext rfl hne, .inr ⟨z, hnext, rfl⟩,
            rfl⟩, ?_⟩
          have hle := length_headsOf_le (Place.rest_right_suffix y.goLeft)
          rw [Place.rest_down hdown', headsOf_cons _ hne, List.length_cons]
          exact Nat.lt_succ_of_le hle

/-- One walk without a count. -/
theorem exists_walk_all (h : Refines rtt t M) : ∃ rth,
    rtt.stdRadixWalk NULL (some fun _ _ => 0) 0 =
      .ok (rth, (headsOf t.pre).take 0xffffffff) := by
  have hcalls := visits_calls rtt.nodes (fun _ _ => 0) t.pre []
    (show 0 < 0xffffffff by decide)
  rw [callsOf_zero, List.nil_append] at hcalls
  rw [← hcalls, h.stdRadixWalk_spec (fun _ _ => 0) (by decide)]
  exact ⟨_, rfl⟩

/-! ## All walks together -/

/-- The walks end with good heads where no prefix to the left goes on. -/
theorem endsWell_iff (h : Refines rtt t M) (counts : Nat → Int) (k : Nat) :
    EndsWell M (listing rtt t) counts k ↔
      ∀ last, (headsOf t.pre)[total counts (k + 1) - 1]? = some last → GoodEnd M last := by
  rw [← h.heads_listing]
  constructor
  · intro hwell last hget K hK
    rw [List.getElem?_map, Option.map_eq_some_iff] at hget
    obtain ⟨⟨K', rth⟩, heq, rfl⟩ := hget
    have hK' := (h.listing_spec.mem _ _).mp (List.mem_of_getElem? heq)
    obtain rfl := h.head_inj hK' hK
    exact hwell _ _ heq
  · intro hgood K rth hget
    refine hgood rth ?_ K ((h.listing_spec.mem _ _).mp (List.mem_of_getElem? hget))
    rw [List.getElem?_map, hget]
    rfl

/-- Resumed walks and one walk come to all heads. -/
theorem resumeWalk_iff {counts : Nat → Int} (hcounts : Positive counts) (h : Refines rtt t M) :
    (∃ fuel calls, resumeWalk rtt counts fuel 0 NULL = .ok calls ∧
      (∃ rth, rtt.stdRadixWalk NULL (some fun _ _ => 0) 0 = .ok (rth, calls)) ∧
      calls = (listing rtt t).map Prod.snd) ↔
    (listing rtt t).length ≤ 0xffffffff ∧ ∀ k, EndsWell M (listing rtt t) counts k := by
  have hplace : OnTour t t.pre := by
    cases t with
    | nil => exact .inl rfl
    | node p v l r => exact .inr ⟨⟨[], p, v, l, r, .down⟩, rfl, by simp [Place.rest, Place.here,
        Ctx.preAfter]⟩
  have hcall : ∀ k p xs, HeadsFrom rtt t p xs → ∃ next calls,
      rtt.stdRadixWalk p (some fun _ _ => 0) (counts k) = .ok (next, calls) ∧
        CallEnds (GoodEnd M) (HeadsFrom rtt t) (counts k).toNat xs next calls :=
    fun k p xs hfrom => h.walk_ends hfrom (hcounts k).1 (hcounts k).2
  have hall : (∃ fuel, resumeWalk rtt counts fuel 0 NULL = .ok (headsOf t.pre)) ↔
      ∀ k last, (headsOf t.pre)[total counts (k + 1) - 1]? = some last → GoodEnd M last :=
    resume_iff hcall ⟨t.pre, h.walksFrom_null, hplace, rfl⟩
  obtain ⟨last, hone⟩ := h.exists_walk_all
  rw [← List.length_map (f := Prod.snd), h.heads_listing, forall_congr' (h.endsWell_iff counts),
    ← hall]
  constructor
  · rintro ⟨fuel, calls, hrun, ⟨rth, hwalk⟩, rfl⟩
    have hlen := congrArg List.length (Prod.mk.inj (Except.ok.inj (hone.symm.trans hwalk))).2
    rw [List.length_take] at hlen
    exact ⟨by omega, fuel, hrun⟩
  · rintro ⟨hlen, fuel, hrun⟩
    rw [List.take_of_length_le hlen] at hone
    exact ⟨fuel, headsOf t.pre, hrun, ⟨last, hone⟩, rfl⟩

end Refines

/-! ## Result -/

/-- Walks that are resumed until `NULL` comes back call back for the same heads as one walk, for all
in lexicographic order, if and only if there are at most `0xffffffff` heads and no count runs out at
a prefix which another one extends by a 0 bit. -/
theorem resumed_walk_iff {maxaddrlen : Nat} {rtt : RtTable} {M : PrefixMap}
    (h : Reached maxaddrlen rtt M) (counts : Nat → Int) (hcounts : Positive counts) :
    ∃ L, M.Listing L ∧
      ((∃ fuel calls, resumeWalk rtt counts fuel 0 NULL = .ok calls ∧
          (∃ rth, rtt.stdRadixWalk NULL (some fun _ _ => 0) 0 = .ok (rth, calls)) ∧
          calls = L.map Prod.snd) ↔
        L.length ≤ 0xffffffff ∧ ∀ k, EndsWell M L counts k) := by
  obtain ⟨t, ht, -⟩ := h.refines
  exact ⟨listing rtt t, ht.listing_spec, ht.resumeWalk_iff hcounts⟩

theorem walkKeys_endsWell {k : Nat} {K : List Bool} {rth : Ptr}
    (hget : walkKeys[total (fun _ => 2) (k + 1) - 1]? = some (K, rth)) :
    (TableOp.specAll PrefixMap.empty walkOps).2.NoLeft K := by
  intro K' hK' hpre
  obtain ⟨rth', hM⟩ := Option.ne_none_iff_exists'.mp hK'
  have hmem := (walkOps_listing.mem K' rth').mpr hM
  cases k with
  | zero =>
    obtain ⟨rfl, -⟩ := Prod.mk.inj (Option.some.inj hget)
    revert hpre
    simp only [walkKeys, List.mem_cons, List.not_mem_nil, Prod.mk.injEq, or_false] at hmem
    rcases hmem with ⟨rfl, -⟩ | ⟨rfl, -⟩ | ⟨rfl, -⟩ <;> decide
  | succ k =>
    have hindex := (List.getElem?_eq_some_iff.mp hget).1
    simp only [total, walkKeys, List.length_cons, List.length_nil] at hindex
    omega

/-- With the counts 2, 2, … the walks end at 10.0/16 and at the end. -/
theorem resumed_walk_iff_sample : ∃ rtt fuel,
    Reached 32 rtt (TableOp.specAll PrefixMap.empty walkOps).2 ∧
      resumeWalk rtt (fun _ => 2) fuel 0 NULL = .ok [1, 2, 3] := by
  obtain ⟨rtt, h⟩ := exists_reached (by decide)
    (@Reached.create 32 true fun _ => default) walkOps_allowed
  obtain ⟨L, hL, hiff⟩ := resumed_walk_iff h (fun _ => 2) (fun k => ⟨by simp, by simp⟩)
  rw [hL.unique walkOps_listing] at hiff
  obtain ⟨fuel, calls, hrun, -, rfl⟩ := hiff.mpr (by
    refine ⟨by decide, ?_⟩
    intro k K rth hget
    exact walkKeys_endsWell hget)
  exact ⟨rtt, fuel, h, hrun⟩

/-- With the counts 1, 1, … the first walk ends at 10/8 and hands back the head of 10.0/16, which
then gets no call. -/
theorem resumed_walk_skips : ∃ rtt,
    Reached 32 rtt (TableOp.specAll PrefixMap.empty walkOps).2 ∧
      ¬ ∃ fuel calls, resumeWalk rtt (fun _ => 1) fuel 0 NULL = .ok calls ∧
        ∃ rth, rtt.stdRadixWalk NULL (some fun _ _ => 0) 0 = .ok (rth, calls) := by
  obtain ⟨rtt, h⟩ := exists_reached (by decide)
    (@Reached.create 32 true fun _ => default) walkOps_allowed
  obtain ⟨t, ht, -⟩ := h.refines
  have hlisting := ht.listing_spec.unique walkOps_listing
  obtain ⟨last, hone⟩ := ht.exists_walk_all
  rw [← ht.heads_listing, hlisting] at hone
  refine ⟨rtt, h, ?_⟩
  rintro ⟨fuel, calls, hrun, rth, hwalk⟩
  have hcalls := (Prod.mk.inj (Except.ok.inj (hone.symm.trans hwalk))).2
  have hwell := ((ht.resumeWalk_iff fun k => ⟨by simp, by simp⟩).mp
    ⟨fuel, calls, hrun, ⟨rth, hwalk⟩, by rw [hlisting, ← hcalls]; rfl⟩).2 0
  rw [hlisting] at hwell
  have hstored := (walkOps_listing.mem _ _).mp
    (show (firstBits (bitAt fun i => if i = 0 then 10 else 0) 16, 2) ∈ walkKeys by decide)
  refine hwell _ _ (rfl : walkKeys[0]? = some (_, 1)) _ (by rw [hstored]; simp) ?_
  decide

end OpxCommonUtils.Radix
