import OpxCommonUtils.Misc.Callbacks
import OpxCommonUtils.Misc.TreeTour
import OpxCommonUtils.Radix.FullWalk
import OpxCommonUtils.Radix.Proofs.Next
import Mathlib.Data.List.Perm.Subperm

/-!
# What a full walk visits

A walk is a tour of the tree (`Tree.Place`): one round is one step of the tour, which comes to the
cells in preorder, and the heads among them are the stored prefixes in lexicographic order. `visits`
says what a walk does with the cells it has yet to come to.
-/

namespace OpxCommonUtils.Radix

open Tree Trie LinkTree

/-- The direction of a walk at a place of the tour. -/
def dirOf : Heading → RtTable.Dir
  | .down => .walkdown
  | .right => .walkright
  | .up => .walkup

namespace Shape

variable {rtt : RtTable} {t : Tree RtVal} {x : Place RtVal}

/-- The cell of a place. -/
theorem get_place (hs : Shape rtt t) (hx : x.whole = t) :
    rtt.nodes.get x.ptr = some
      (NodeLayout.cell (x.left.root NULL) (x.right.root NULL) (Ctx.top NULL x.ctx) x.val) :=
  hs.get_node hx

theorem place_ne_null (hs : Shape rtt t) (hx : x.whole = t) : x.ptr ≠ NULL := by
  refine hs.ptr_ne_null ?_
  rw [← hx, Place.whole, mem_ptrs_plug]
  exact .inl (by simp [Place.here, ptrs])

theorem left_eq_null (hs : Shape rtt t) (hx : x.whole = t) :
    x.left.root NULL = NULL ↔ x.left = .nil :=
  hs.root_of_subtree (c := ⟨.left, x.ptr, x.val, x.right⟩ :: x.ctx) hx

theorem right_eq_null (hs : Shape rtt t) (hx : x.whole = t) :
    x.right.root NULL = NULL ↔ x.right = .nil :=
  hs.root_of_subtree (c := ⟨.right, x.ptr, x.val, x.left⟩ :: x.ctx) hx

/-- Above the root there is nothing; above another place is its parent, which knows the side. -/
theorem parent_place (hs : Shape rtt t) (hx : x.whole = t) :
    x.ctx = [] ∧ Ctx.top NULL x.ctx = NULL ∨ ∃ f c, x.ctx = f :: c ∧ Ctx.top NULL x.ctx = f.ptr ∧
      f.ptr ≠ NULL ∧ ∃ m, rtt.nodes.deref f.ptr = .ok m ∧ (x.ptr = m.rtnLeft ↔ f.side = .left) := by
  cases hctx : x.ctx with
  | nil => exact .inl ⟨rfl, rfl⟩
  | cons f c =>
    have heq : plug (f :: c) x.here = t := hctx ▸ hx
    refine .inr ⟨f, c, rfl, rfl, hs.frame_ne_null heq (List.mem_cons_self ..), _,
      Heap.deref_ok (hs.get_frame heq), ?_⟩
    cases hside : f.side with
    | left => simp [mkSide, cell_rtNode, Place.here]
    | right =>
      have hdiff : x.here.root NULL ≠ f.sib.root NULL :=
        Holds.root_ne _ (s := f.side) (p := f.ptr) (v := f.val) (c := c)
          (by rw [← plug_cons, heq]; exact hs.holds) (.inl (by simp [Place.here]))
      simpa [mkSide, cell_rtNode, Place.here] using hdiff

end Shape

/-! ## One round -/

namespace RadixWalk

variable (walkFn : Option (List Ptr → Ptr → Int)) (w : RadixWalk)

/-- The walk goes to a place of the tour. -/
def moved (x : Place RtVal) : RadixWalk := { w with rtn := x.ptr, dir := dirOf x.heading }

/-- The walk has come to a node, whose head gets a call. -/
def arrived (v : RtVal) : RadixWalk := if v.rth ≠ NULL then w.userCallback walkFn v.rth else w

theorem rtn_arrived (v : RtVal) : (w.arrived walkFn v).rtn = w.rtn := by
  unfold arrived userCallback
  split_ifs <;> cases walkFn <;> rfl

theorem dir_arrived (v : RtVal) : (w.arrived walkFn v).dir = w.dir := by
  unfold arrived userCallback
  split_ifs <;> cases walkFn <;> rfl

variable {rtt : RtTable} {t : Tree RtVal} {x : Place RtVal} {walkFn} {w}

theorem round_down (hs : Shape rtt t) (hx : x.whole = t) (hrtn : w.rtn = x.ptr)
    (hdir : w.dir = .walkdown) :
    w.round rtt.nodes walkFn = .ok (some ((w.arrived walkFn x.val).moved x.goLeft)) := by
  have hstay := rtn_arrived walkFn w x.val
  have hkeep := dir_arrived walkFn w x.val
  rw [round, hrtn, Heap.deref_ok (hs.get_place hx), exec_bind_ok, hdir]
  by_cases hleft : x.left = .nil
  · rw [Place.goLeft_nil hleft, moved]
    simp only [cell_rtNode, (hs.left_eq_null hx).mpr hleft, ne_eq, not_true_eq_false, if_false]
    rw [← hrtn, ← hstay]
    rfl
  · obtain ⟨hptr, hheading⟩ := Place.goLeft_of_ne hleft NULL
    rw [moved, hptr, hheading]
    simp only [cell_rtNode, (hs.left_eq_null hx).not.mpr hleft, ne_eq, not_false_eq_true, if_true]
    rw [show dirOf .down = (w.arrived walkFn x.val).dir from (hkeep.trans hdir).symm]
    rfl

theorem round_right (hs : Shape rtt t) (hx : x.whole = t) (hrtn : w.rtn = x.ptr)
    (hdir : w.dir = .walkright) :
    w.round rtt.nodes walkFn = .ok (some (w.moved x.goRight)) := by
  rw [round, hrtn, Heap.deref_ok (hs.get_place hx), exec_bind_ok, hdir]
  by_cases hright : x.right = .nil
  · rw [Place.goRight_nil hright, moved, ← hrtn]
    simp only [cell_rtNode, (hs.right_eq_null hx).mpr hright, if_true]
    rfl
  · obtain ⟨hptr, hheading⟩ := Place.goRight_of_ne hright NULL
    rw [moved, hptr, hheading]
    simp only [cell_rtNode, (hs.right_eq_null hx).not.mpr hright, if_false]
    rfl

theorem round_up (hs : Shape rtt t) (hx : x.whole = t) (hrtn : w.rtn = x.ptr)
    (hdir : w.dir = .walkup) :
    x.ctx = [] ∧ w.round rtt.nodes walkFn = .ok none ∨ ∃ f c, x.ctx = f :: c ∧
      w.round rtt.nodes walkFn = .ok (some (w.moved (x.goUp f c))) := by
  rw [round, hrtn, Heap.deref_ok (hs.get_place hx), exec_bind_ok, hdir]
  simp only [cell_rtNode]
  rcases hs.parent_place hx with ⟨hctx, htop⟩ | ⟨f, c, hctx, htop, hne, m, hm, hside⟩
  · rw [if_pos htop]
    exact .inl ⟨hctx, rfl⟩
  · rw [if_neg (htop ▸ hne), htop, hm, exec_bind_ok]
    refine .inr ⟨f, c, hctx, ?_⟩
    rw [moved, Place.goUp_ptr]
    simp only [hside]
    unfold Place.goUp
    cases hf : f.side with
    | left => rfl
    | right => rfl

end RadixWalk

/-! ## The whole walk -/

/-- The head a walk hands back that stops at the node `p`: the loop has gone on to the left child
by then. -/
def stopHead (nodes : Heap RtNode) (p : Ptr) : Ptr :=
  match nodes.get p with
  | none => NULL
  | some n =>
    if n.rtnLeft = NULL then n.rtnRth else ((nodes.get n.rtnLeft).map RtNode.rtnRth).getD NULL

/-- What a walk with `lcnt` calls to go does with the cells it has yet to come to: the head it hands
back and the calls. -/
def visits (nodes : Heap RtNode) (walkFn : List Ptr → Ptr → Int) :
    Nat → List Ptr → List (Ptr × RtVal) → Ptr × List Ptr
  | _, calls, [] => (NULL, calls)
  | lcnt, calls, x :: cells =>
    if x.2.rth = NULL then visits nodes walkFn lcnt calls cells
    else if walkFn calls x.2.rth ≠ 0 ∨ lcnt = 1 then (stopHead nodes x.1, calls ++ [x.2.rth])
    else visits nodes walkFn (lcnt - 1) (calls ++ [x.2.rth]) cells

theorem Shape.stopHead_place {rtt : RtTable} {t : Tree RtVal} {x : Place RtVal}
    (hs : Shape rtt t) (hx : x.whole = t) : stopHead rtt.nodes x.ptr = x.goLeft.val.rth := by
  rw [stopHead, hs.get_place hx]
  simp only [cell_rtNode]
  by_cases hleft : x.left = .nil
  · rw [if_pos ((hs.left_eq_null hx).mpr hleft), Place.goLeft_nil hleft]
  · have hnext := hs.get_place ((Place.whole_goLeft x).trans hx)
    obtain ⟨hptr, -⟩ := Place.goLeft_of_ne hleft NULL
    rw [if_neg ((hs.left_eq_null hx).not.mpr hleft), ← hptr, hnext]
    rfl

/-- Without calls to go the walk hands back the head of the place it is at. -/
theorem Shape.loop_stopped {rtt : RtTable} {t : Tree RtVal} {x : Place RtVal} {w : RadixWalk}
    {walkFn : Option (List Ptr → Ptr → Int)} {fuel : Nat} (hs : Shape rtt t) (hx : x.whole = t)
    (hrtn : w.rtn = x.ptr) (hlcnt : w.lcnt = 0) (hfuel : 0 < fuel) :
    RadixWalk.loop rtt.nodes walkFn fuel w = .ok (x.val.rth, w.calls) := by
  obtain ⟨fuel, rfl⟩ : ∃ n, fuel = n + 1 := ⟨fuel - 1, by omega⟩
  rw [RadixWalk.loop, hrtn, if_neg (hs.place_ne_null hx), if_pos hlcnt,
    Heap.deref_ok (hs.get_place hx), exec_bind_ok]
  rfl

/-- A walk from a place of the tour does with the cells what it is to do. -/
theorem Shape.loop_spec {rtt : RtTable} {t : Tree RtVal} (hs : Shape rtt t)
    (walkFn : List Ptr → Ptr → Int) : ∀ (fuel : Nat) (x : Place RtVal) (w : RadixWalk),
      x.whole = t → w.rtn = x.ptr → w.dir = dirOf x.heading → 0 < w.lcnt → x.rounds < fuel →
      RadixWalk.loop rtt.nodes (some walkFn) fuel w =
        .ok (visits rtt.nodes walkFn w.lcnt w.calls x.rest) := by
  intro fuel
  induction fuel with
  | zero => intro x w _ _ _ _ hfuel; omega
  | succ fuel ih =>
    intro x w hx hrtn hdir hlcnt hfuel
    rw [RadixWalk.loop, if_neg (hrtn ▸ hs.place_ne_null hx), if_neg hlcnt.ne']
    cases hheading : x.heading with
    | down =>
      rw [hheading] at hdir
      have hrounds := Place.rounds_down hheading
      rw [RadixWalk.round_down hs hx hrtn hdir, exec_bind_ok, Place.rest_down hheading]
      dsimp only
      have hnext : x.goLeft.whole = t := (Place.whole_goLeft x).trans hx
      by_cases h0 : x.val.rth = NULL
      · rw [RadixWalk.arrived, if_neg (not_not.mpr h0), visits, if_pos h0]
        exact ih x.goLeft _ hnext rfl rfl hlcnt (by omega)
      · rw [RadixWalk.arrived, if_pos h0, visits, if_neg h0]
        by_cases hstop : walkFn w.calls x.val.rth ≠ 0 ∨ w.lcnt = 1
        · -- the next round finds no calls to go
          have hnone : ((w.userCallback (some walkFn) x.val.rth).moved x.goLeft).lcnt = 0 := by
            simp only [RadixWalk.moved, RadixWalk.userCallback, ulongPred, hlcnt.ne', if_false]
            split_ifs with hret
            · rfl
            · have := hstop.resolve_left hret
              omega
          rw [if_pos hstop, hs.loop_stopped hnext rfl hnone (by omega), hs.stopHead_place hx]
          rfl
        · rw [not_or, not_not] at hstop
          rw [if_neg (by simp [hstop.1, hstop.2])]
          have hpred : ((w.userCallback (some walkFn) x.val.rth).moved x.goLeft).lcnt =
              w.lcnt - 1 := by
            simp [RadixWalk.moved, RadixWalk.userCallback, ulongPred, hlcnt.ne', hstop.1]
          have hrest := ih x.goLeft ((w.userCallback (some walkFn) x.val.rth).moved x.goLeft) hnext
            rfl rfl (by rw [hpred]; omega) (by omega)
          rw [hpred] at hrest
          exact hrest
    | right =>
      rw [hheading] at hdir
      have hrounds := Place.rounds_right hheading
      rw [RadixWalk.round_right hs hx hrtn hdir, exec_bind_ok, ← Place.rest_right hheading]
      exact ih x.goRight _ ((Place.whole_goRight x).trans hx) rfl rfl hlcnt (by omega)
    | up =>
      rw [hheading] at hdir
      rcases RadixWalk.round_up hs hx hrtn hdir with ⟨hctx, hround⟩ | ⟨f, c, hctx, hround⟩
      · rw [hround, exec_bind_ok, Place.rest_end hheading hctx]
        rfl
      · have hrounds := Place.rounds_up hheading hctx
        rw [hround, exec_bind_ok, ← Place.rest_up hheading hctx]
        exact ih _ _ ((Place.whole_goUp hctx).trans hx) rfl rfl hlcnt (by omega)

/-! ## The heads in order -/

/-- The heads among cells. -/
def headsOf (cells : List (Ptr × RtVal)) : List Ptr :=
  (cells.filter fun x => x.2.rth ≠ NULL).map fun x => x.2.rth

theorem headsOf_cons_null {x : Ptr × RtVal} (cells : List (Ptr × RtVal)) (h0 : x.2.rth = NULL) :
    headsOf (x :: cells) = headsOf cells := by
  simp [headsOf, h0]

theorem headsOf_cons {x : Ptr × RtVal} (cells : List (Ptr × RtVal)) (h0 : x.2.rth ≠ NULL) :
    headsOf (x :: cells) = x.2.rth :: headsOf cells := by
  simp [headsOf, h0]

@[simp] theorem headsOf_append (xs ys : List (Ptr × RtVal)) :
    headsOf (xs ++ ys) = headsOf xs ++ headsOf ys := by
  simp [headsOf]

theorem length_headsOf_le {xs ys : List (Ptr × RtVal)} (h : xs <:+ ys) :
    (headsOf xs).length ≤ (headsOf ys).length := by
  obtain ⟨zs, rfl⟩ := h
  rw [headsOf_append, List.length_append]
  omega

/-- The callback gets the next heads. -/
theorem visits_calls (nodes : Heap RtNode) (walkFn : List Ptr → Ptr → Int)
    (cells : List (Ptr × RtVal)) : ∀ {lcnt : Nat} (calls : List Ptr), 0 < lcnt →
      (visits nodes walkFn lcnt calls cells).2 =
        callsOf walkFn calls ((headsOf cells).take lcnt) := by
  induction cells with
  | nil =>
    intro lcnt calls _
    simp [visits, headsOf, callsOf]
  | cons x cells ih =>
    intro lcnt calls hlcnt
    by_cases h0 : x.2.rth = NULL
    · rw [visits, if_pos h0, headsOf_cons_null cells h0]
      exact ih calls hlcnt
    · obtain ⟨n, rfl⟩ : ∃ n, lcnt = n + 1 := ⟨lcnt - 1, by omega⟩
      rw [visits, if_neg h0, headsOf_cons cells h0, List.take_succ_cons, callsOf]
      by_cases hret : walkFn calls x.2.rth ≠ 0
      · rw [if_pos (.inl hret), if_pos hret]
      · rw [if_neg hret]
        cases n with
        | zero => rw [if_pos (.inr rfl), List.take_zero, callsOf]
        | succ n =>
          rw [if_neg (by simp [hret])]
          exact ih _ (Nat.succ_pos n)

/-- Of the cells that hold a head, those that `sel` picks are those it picks of the entries. -/
theorem filter_cells {heads : Ptr → RtHead} {cells : List (Ptr × RtVal)}
    (hlinked : ∀ x ∈ cells, Linked heads x) {sel : Ptr × RtVal → Bool}
    (hsel : ∀ x, sel x = true → x.2.rth ≠ NULL) :
    cells.filter sel = ((entriesOf (view heads) cells).filter fun e => sel e.2).map Prod.snd := by
  induction cells with
  | nil => rfl
  | cons x cells ih =>
    have ih := ih fun y hy => hlinked y (by simp [hy])
    by_cases h0 : x.2.rth = NULL
    · have hkey := (key_view_eq_none (hlinked x (by simp))).mpr h0
      rw [List.filter_cons_of_neg fun h => hsel x h h0, ih]
      simp [entriesOf, hkey]
    · obtain ⟨a, ha⟩ := (hlinked x (by simp)).addr h0
      rw [List.filter_cons, ih]
      cases hx : sel x <;> simp [entriesOf, key_view_of_addr h0 ha, hx]

/-- The heads among cells are those of their entries. -/
theorem headsOf_eq {heads : Ptr → RtHead} {cells : List (Ptr × RtVal)}
    (hlinked : ∀ x ∈ cells, Linked heads x) :
    headsOf cells = (entriesOf (view heads) cells).map fun e => e.2.2.rth := by
  have hall : ∀ e ∈ entriesOf (view heads) cells, decide (e.2.2.rth ≠ NULL) = true := by
    intro e he
    obtain ⟨x, hx, hkey⟩ := List.mem_filterMap.mp he
    obtain ⟨k, hk, rfl⟩ := Option.map_eq_some_iff.mp hkey
    simp only [view, Option.ite_none_left_eq_some] at hk
    exact decide_eq_true hk.1
  rw [headsOf, filter_cells hlinked fun x hx => of_decide_eq_true hx,
    List.filter_eq_self.mpr hall, List.map_map]
  rfl

/-- The prefixes of a map in lexicographic order, a prefix before what extends it, with their
heads. -/
structure PrefixMap.Listing (M : PrefixMap) (L : List (List Bool × Ptr)) : Prop where
  sorted : L.Pairwise fun e e' => e.1 < e'.1
  mem : ∀ K rth, (K, rth) ∈ L ↔ M K = some rth

/-- A list is as long as there are different heads in it. -/
theorem le_length_of_heads {L : List (List Bool × Ptr)} {n : Nat}
    (hL : ∀ i < n, ∃ K, (K, i + 1) ∈ L) : n ≤ L.length := by
  have hsub : (List.range n).map (· + 1) ⊆ L.map Prod.snd := by
    intro rth hrth
    obtain ⟨i, hi, rfl⟩ := List.mem_map.mp hrth
    obtain ⟨K, hK⟩ := hL i (List.mem_range.mp hi)
    exact List.mem_map.mpr ⟨(K, i + 1), hK, rfl⟩
  have hnodup : ((List.range n).map (· + 1)).Nodup :=
    List.nodup_range.map fun i j hij => Nat.succ.inj hij
  have hlen := (hnodup.subperm hsub).length_le
  rwa [List.length_map, List.length_range, List.length_map] at hlen

/-- The members of a list of heads fix the list when its prefixes go up. -/
theorem eq_of_sorted {L L' : List (List Bool × Ptr)} (hL : L.Pairwise fun e e' => e.1 < e'.1)
    (hL' : L'.Pairwise fun e e' => e.1 < e'.1) (hmem : ∀ e, e ∈ L ↔ e ∈ L') : L = L' := by
  have hnodup : ∀ {L : List (List Bool × Ptr)}, (L.Pairwise fun e e' => e.1 < e'.1) →
      L.Nodup := by
    intro L hL
    refine hL.imp ?_
    rintro e _ hlt rfl
    exact lt_irrefl _ hlt
  have hperm : L.Perm L' := (List.perm_ext_iff_of_nodup (hnodup hL) (hnodup hL')).mpr hmem
  refine hperm.eq_of_pairwise ?_ hL hL'
  intro e e' _ _ hlt hgt
  exact absurd (hlt.trans hgt) (lt_irrefl _)

/-- A map has only one listing. -/
theorem PrefixMap.Listing.unique {M : PrefixMap} {L L' : List (List Bool × Ptr)}
    (hL : M.Listing L) (hL' : M.Listing L') : L = L' := by
  refine eq_of_sorted hL.sorted hL'.sorted fun e => ?_
  rw [hL.mem e.1 e.2, hL'.mem e.1 e.2]

/-- The entries of the tree with their heads. -/
def listing (rtt : RtTable) (t : Tree RtVal) : List (List Bool × Ptr) :=
  (entries (view rtt.heads) t).map fun e => (e.1, e.2.2.rth)

namespace Refines

variable {rtt : RtTable} {t : Tree RtVal} {M : PrefixMap}

theorem listing_spec (h : Refines rtt t M) : M.Listing (listing rtt t) where
  sorted := by
    rw [listing, List.pairwise_map]
    exact h.shape.wf.sorted
  mem := by
    intro K rth
    rw [h.stored, listing, List.mem_map]
    constructor
    · rintro ⟨⟨k, x⟩, hx, heq⟩
      obtain ⟨rfl, rfl⟩ := Prod.mk.inj heq
      exact ⟨x, hx, rfl⟩
    · rintro ⟨x, hx, rfl⟩
      exact ⟨(K, x), hx, rfl⟩

theorem heads_listing (h : Refines rtt t M) : (listing rtt t).map Prod.snd = headsOf t.pre := by
  rw [headsOf_eq h.shape.linked, entriesOf_pre, listing, List.map_map]
  rfl

/-- No head is listed twice. -/
theorem nodup_heads (h : Refines rtt t M) : (headsOf t.pre).Nodup := by
  rw [← h.heads_listing, List.Nodup, List.pairwise_map]
  refine h.listing_spec.sorted.imp_of_mem ?_
  intro e e' he he' hlt hsame
  have hK := (h.listing_spec.mem e.1 e.2).mp he
  have hK' := (h.listing_spec.mem e'.1 e'.2).mp he'
  rw [h.head_inj hK (hsame ▸ hK')] at hlt
  exact lt_irrefl _ hlt

/-- A walk from the beginning. -/
theorem stdRadixWalk_spec (h : Refines rtt t M) (walkFn : List Ptr → Ptr → Int) {cnt : Int}
    (hcnt : 0 ≤ cnt ∧ cnt < 2 ^ 31) :
    rtt.stdRadixWalk NULL (some walkFn) cnt = .ok
      (visits rtt.nodes walkFn (if cnt = 0 then 0xffffffff else cnt.toNat) [] t.pre) := by
  have hlcnt : (if cnt = 0 then 0xffffffff else (cnt % 2 ^ 64).toNat) =
      if cnt = 0 then 0xffffffff else cnt.toNat := by
    split_ifs
    · rfl
    · rw [Int.emod_eq_of_lt hcnt.1 (by omega)]
  unfold RtTable.stdRadixWalk
  rw [if_pos rfl, hlcnt]
  cases t with
  | nil =>
    rw [h.shape.root_eq_null.mpr rfl]
    rfl
  | node p v l r =>
    let x : Place RtVal := ⟨[], p, v, l, r, .down⟩
    have hsize := h.shape.holds.size_le
    have hrounds := x.rounds_le
    have hroot : rtt.rttRoot = p := h.shape.holds.root_eq
    have hloop := h.shape.loop_spec walkFn (3 * rtt.nodes.bound + 2) x
      ⟨rtt.rttRoot, .walkdown, if cnt = 0 then 0xffffffff else cnt.toNat, []⟩ rfl hroot rfl
      (by dsimp only; split_ifs <;> omega) (by
        have hwhole : x.whole.size ≤ rtt.nodes.bound := hsize
        omega)
    rw [hloop]
    simp [x, Place.rest, Place.here, Ctx.preAfter]

end Refines

/-! ## Result -/

/-- A walk with the count `cnt` calls back for the first `cnt` stored heads in lexicographic order,
or for all of them if `cnt` is 0, until the callback returns something else than 0; it does so
exactly when `cnt` is not 0, or there are at most `0xffffffff` heads, or the callback stops the walk
before. -/
theorem full_walk_iff {maxaddrlen : Nat} {rtt : RtTable} {M : PrefixMap}
    (h : Reached maxaddrlen rtt M) (walkFn : List Ptr → Ptr → Int) (cnt : Int)
    (hcnt : 0 ≤ cnt ∧ cnt < 2 ^ 31) :
    ∃ L, M.Listing L ∧ (L.map Prod.snd).Nodup ∧
      ((∃ rth, rtt.stdRadixWalk NULL (some walkFn) cnt = .ok (rth,
          callsOf walkFn [] (if cnt = 0 then L.map Prod.snd else (L.map Prod.snd).take cnt.toNat))) ↔
        cnt ≠ 0 ∨ L.length ≤ 0xffffffff ∨ StopsWithin walkFn 0xffffffff (L.map Prod.snd)) := by
  obtain ⟨t, ht, -⟩ := h.refines
  have hheads := ht.heads_listing
  refine ⟨listing rtt t, ht.listing_spec, hheads ▸ ht.nodup_heads, ?_⟩
  rw [ht.stdRadixWalk_spec walkFn hcnt, hheads, ← List.length_map (f := Prod.snd), hheads]
  have hcalls : ∀ {lcnt : Nat} {calls : List Ptr}, 0 < lcnt →
      ((∃ rth, (Except.ok (visits rtt.nodes walkFn lcnt [] t.pre) : Exec _) = .ok (rth, calls)) ↔
        callsOf walkFn [] ((headsOf t.pre).take lcnt) = calls) := by
    intro lcnt calls hlcnt
    rw [← visits_calls rtt.nodes walkFn t.pre [] hlcnt]
    constructor
    · rintro ⟨rth, heq⟩
      rw [Except.ok.inj heq]
    · rintro rfl
      exact ⟨_, rfl⟩
  by_cases h0 : cnt = 0
  · subst h0
    simp only [if_true, ne_eq, not_true_eq_false, false_or]
    rw [hcalls (by decide)]
    exact callsOf_take_iff _ _
  · simp only [h0, if_false]
    exact iff_of_true ((hcalls (by omega)).mpr rfl) (.inl h0)

/-- 10/8 with 10.0/16 to its left and 10.128/16 to its right. -/
def walkOps : List TableOp := [
  .insert .above true 1 (fun i => if i = 0 then 10 else 0) 8,
  .insert .above true 2 (fun i => if i = 0 then 10 else 0) 16,
  .insert .above true 3 (fun i => if i = 0 then 10 else 128) 16]

/-- The prefixes of `walkOps` in order. -/
def walkKeys : List (List Bool × Ptr) := [
  (firstBits (bitAt fun i => if i = 0 then 10 else 0) 8, 1),
  (firstBits (bitAt fun i => if i = 0 then 10 else 0) 16, 2),
  (firstBits (bitAt fun i => if i = 0 then 10 else 128) 16, 3)]

theorem walkOps_spec : (TableOp.specAll PrefixMap.empty walkOps).2 =
    ((PrefixMap.empty.insert (firstBits (bitAt fun i => if i = 0 then 10 else 0) 8) 1).insert
      (firstBits (bitAt fun i => if i = 0 then 10 else 0) 16) 2).insert
        (firstBits (bitAt fun i => if i = 0 then 10 else 128) 16) 3 := by
  simp only [walkOps, TableOp.specAll]
  rw [TableOp.spec_insert rfl, TableOp.spec_insert (by decide), TableOp.spec_insert (by decide)]

theorem walkOps_listing : (TableOp.specAll PrefixMap.empty walkOps).2.Listing walkKeys := by
  refine ⟨by decide, ?_⟩
  have h₁ : firstBits (bitAt fun i => if i = 0 then 10 else 0) 8 ≠
      firstBits (bitAt fun i => if i = 0 then 10 else 0) 16 := by decide
  have h₂ : firstBits (bitAt fun i => if i = 0 then 10 else 0) 8 ≠
      firstBits (bitAt fun i => if i = 0 then 10 else 128) 16 := by decide
  have h₃ : firstBits (bitAt fun i => if i = 0 then 10 else 0) 16 ≠
      firstBits (bitAt fun i => if i = 0 then 10 else 128) 16 := by decide
  intro K rth
  rw [walkOps_spec]
  simp only [walkKeys, List.mem_cons, List.not_mem_nil, Prod.mk.injEq, or_false, PrefixMap.insert,
    PrefixMap.empty]
  split_ifs with hK₃ hK₂ hK₁
  · subst hK₃
    simp [h₂.symm, h₃.symm, eq_comm]
  · subst hK₂
    simp [h₁.symm, h₃, eq_comm]
  · subst hK₁
    simp [h₁, h₂, eq_comm]
  · simp [hK₁, hK₂, hK₃]

theorem walkOps_allowed : TableOp.AllAllowed 32 PrefixMap.empty walkOps :=
  TableOp.allAllowed_inserts [(1, fun i => if i = 0 then 10 else 0, 8),
    (2, fun i => if i = 0 then 10 else 0, 16), (3, fun i => if i = 0 then 10 else 128, 16)]
    (by decide) (by decide) (by simp [PrefixMap.empty])

/-- A walk with the count 2 comes to 10/8 and to 10.0/16. -/
theorem full_walk_iff_sample : ∃ rtt rth,
    Reached 32 rtt (TableOp.specAll PrefixMap.empty walkOps).2 ∧
      rtt.stdRadixWalk NULL (some fun _ _ => 0) 2 = .ok (rth, [1, 2]) := by
  obtain ⟨rtt, h⟩ := exists_reached (by decide)
    (@Reached.create 32 true fun _ => default) walkOps_allowed
  obtain ⟨L, hL, -, hiff⟩ := full_walk_iff h (fun _ _ => 0) 2 (by decide)
  obtain ⟨rth, hwalk⟩ := hiff.mpr (.inl (by decide))
  rw [hL.unique walkOps_listing] at hwalk
  exact ⟨rtt, rth, h, hwalk⟩

end OpxCommonUtils.Radix
