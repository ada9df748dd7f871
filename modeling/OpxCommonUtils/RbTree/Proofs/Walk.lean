import OpxCommonUtils.Misc.Callbacks
import OpxCommonUtils.Misc.TreeTour
import OpxCommonUtils.RbTree.Walk
import OpxCommonUtils.RbTree.Proofs.Iteration

/-!
# What a walk visits

A walk is a tour of the tree (`Tree.Place`). A round either makes a call for the next node of the
order, or leaves what is to come as it is (`Round`); in both cases it comes closer to the end of the
tour. So the calls are those for the elements of the recursive traversal, as far as the count goes.
-/

namespace OpxCommonUtils.RbTree

open OpxCommonUtils.Tree LinkTree RbtreeTable TreeOp

/-- The direction of a walk at a place of the tour. -/
def dirOf : Heading → Dir
  | .down => .walkdown
  | .right => .walkright
  | .up => .walkup

/-- The cells that are still to come, in the order of the walk. -/
def toCome : WalkFlag → Place RbVal → List (Ptr × RbVal)
  | .inorderwalk, x => x.restIno
  | .preorderwalk, x => x.rest

/-- The walk goes to a place of the tour. -/
def RbtreeWalk.moved (w : RbtreeWalk) (x : Place RbVal) : RbtreeWalk :=
  { w with x := x.ptr, dir := dirOf x.heading }

/-- The callback gets a user node. -/
def RbtreeWalk.called (walkFn : List Ptr → Ptr → Int) (w : RbtreeWalk) (d : Ptr) : RbtreeWalk :=
  { w with lcnt := if walkFn w.calls d ≠ 0 then 0 else ulongPred w.lcnt, calls := w.calls ++ [d] }

/-- Where a walk stands after the call for the node `p`. -/
def RbtreeTable.stopNode (rbtt : RbtreeTable) : WalkFlag → Ptr → Ptr
  | .inorderwalk, p => p
  | .preorderwalk, p =>
    match rbtt.child .left p with
    | .ok l => if l = NIL then p else l
    | .error _ => p

/-- What a round does at a place: it ends the walk, it moves on, or it makes a call. -/
inductive Round (rbtt : RbtreeTable) (flag : WalkFlag) (walkFn : List Ptr → Ptr → Int)
    (w : RbtreeWalk) (x : Place RbVal) : Option RbtreeWalk → Prop
  | ended : toCome flag x = [] → Round rbtt flag walkFn w x none
  | moves (y : Place RbVal) : y.whole = x.whole → y.rounds < x.rounds →
      toCome flag x = toCome flag y → Round rbtt flag walkFn w x (some (w.moved y))
  | calls (y : Place RbVal) (cell : Ptr × RbVal) : y.whole = x.whole → y.rounds < x.rounds →
      toCome flag x = cell :: toCome flag y → y.ptr = rbtt.stopNode flag cell.1 →
      Round rbtt flag walkFn w x (some ((w.called walkFn cell.2.data).moved y))

section Rounds

variable {rbtt : RbtreeTable} {flag : WalkFlag} {walkFn : List Ptr → Ptr → Int} {w : RbtreeWalk}
  {x : Place RbVal}

theorem userCallback_ok {p d : Ptr} (h : rbtt.data p = .ok d) :
    rbtt.userCallback (some walkFn) w p = .ok (w.called walkFn d) := by
  rw [userCallback, h]
  rfl

/-- A round at a place that has moved on without a call. -/
theorem Round.of_moved {y : Place RbVal} {res : Option RbtreeWalk}
    (h : Round rbtt flag walkFn w y res) (hwhole : y.whole = x.whole) (hrounds : y.rounds < x.rounds)
    (hcome : toCome flag x = toCome flag y) : Round rbtt flag walkFn w x res := by
  cases h with
  | ended hnil => exact .ended (hcome.trans hnil)
  | moves z hz hlt hsame => exact .moves z (hz.trans hwhole) (hlt.trans hrounds) (hcome.trans hsame)
  | calls z cell hz hlt hcons hptr =>
    exact .calls z cell (hz.trans hwhole) (hlt.trans hrounds) (hcome.trans hcons) hptr

theorem left_root_eq (hs : Shape rbtt x.whole) : x.left.root NIL = NIL ↔ x.left = .nil :=
  Holds.root_eq_nul (c := ⟨.left, x.ptr, x.val, x.right⟩ :: x.ctx) hs.holds

theorem right_root_eq (hs : Shape rbtt x.whole) : x.right.root NIL = NIL ↔ x.right = .nil :=
  Holds.root_eq_nul (c := ⟨.right, x.ptr, x.val, x.left⟩ :: x.ctx) hs.holds

theorem round_down (hs : Shape rbtt x.whole) (hheading : x.heading = .down) :
    Delivers (rbtt.walkRound flag (some walkFn) (w.moved x)) (Round rbtt flag walkFn w x) := by
  have hchild : rbtt.child .left x.ptr = .ok (x.left.root NIL) := Shape.child_left hs
  have hdata : rbtt.data x.ptr = .ok x.val.data := Shape.data_node hs
  have hrounds := Place.rounds_down hheading
  rw [RbtreeWalk.moved, hheading, walkRound]
  dsimp only [dirOf]
  rw [hchild, exec_bind_ok]
  by_cases hleft : x.left = .nil
  · have hnil := (left_root_eq hs).mpr hleft
    have hgo := Place.goLeft_nil hleft
    have hcalls : Round rbtt flag walkFn w x
        (some ((w.called walkFn x.val.data).moved x.goLeft)) := by
      refine .calls x.goLeft (x.ptr, x.val) (Place.whole_goLeft x) hrounds ?_ ?_
      · cases flag with
        | inorderwalk => exact Place.restIno_down_nil hheading hleft
        | preorderwalk => exact Place.rest_down hheading
      · rw [hgo]
        cases flag with
        | inorderwalk => rfl
        | preorderwalk => simp only [stopNode, hchild, hnil, if_true]
    rw [hgo] at hcalls
    rw [if_neg (not_not.mpr hnil), userCallback_ok hdata, exec_bind_ok]
    exact delivers_ok.mpr hcalls
  · have hne := (left_root_eq hs).not.mpr hleft
    obtain ⟨hptr, hdown⟩ := Place.goLeft_of_ne hleft NIL
    have hgo : ∀ w' : RbtreeWalk,
        w'.moved x.goLeft = ⟨x.left.root NIL, .walkdown, w'.lcnt, w'.calls⟩ := by
      intro w'
      rw [RbtreeWalk.moved, hptr, hdown]
      rfl
    rw [if_pos hne]
    cases flag with
    | inorderwalk =>
      have hmoves : Round rbtt .inorderwalk walkFn w x (some (w.moved x.goLeft)) :=
        .moves x.goLeft (Place.whole_goLeft x) hrounds
          (Place.restIno_down_of_ne hheading hleft).symm
      rw [hgo] at hmoves
      rw [if_neg (by simp)]
      exact delivers_ok.mpr hmoves
    | preorderwalk =>
      have hcalls : Round rbtt .preorderwalk walkFn w x
          (some ((w.called walkFn x.val.data).moved x.goLeft)) := by
        refine .calls x.goLeft (x.ptr, x.val) (Place.whole_goLeft x) hrounds
          (Place.rest_down hheading) ?_
        simp only [stopNode, hchild, hne, if_false]
        exact hptr
      rw [hgo] at hcalls
      rw [if_pos rfl, userCallback_ok hdata, exec_bind_ok]
      exact delivers_ok.mpr hcalls

/-- The step to the parent of a place that is to go up. -/
theorem walkUp_spec (hs : Shape rbtt x.whole) (hheading : x.heading = .up) {w' : RbtreeWalk}
    (hx : w'.x = x.ptr) (hlcnt : w'.lcnt = w.lcnt) (hcalls : w'.calls = w.calls) :
    Delivers (rbtt.walkUp flag (some walkFn) w') (Round rbtt flag walkFn w x) := by
  have hparent : rbtt.parent x.ptr = .ok (Ctx.top NIL x.ctx) := Shape.parent_node hs
  rw [walkUp, hx, hparent, exec_bind_ok]
  cases hctx : x.ctx with
  | nil =>
    rw [Ctx.top_nil, if_pos rfl]
    refine delivers_ok.mpr (.ended ?_)
    cases flag with
    | inorderwalk => exact Place.restIno_end hheading hctx
    | preorderwalk => exact Place.rest_end hheading hctx
  | cons f c =>
    have hplug : Shape rbtt (plug (f :: c) x.here) := hctx ▸ hs
    have hf : f.ptr ≠ NIL := hplug.ne_NIL (by simp [mem_ptrs_plug])
    have hrounds := Place.rounds_up hheading hctx
    have hwhole := Place.whole_goUp hctx
    obtain ⟨q, hq, htest⟩ := hplug.child_test (.inl (by simp [Place.here])) .left
    rw [Place.here, root_node] at htest
    rw [Ctx.top_cons, if_neg hf, hq, exec_bind_ok]
    cases hside : f.side with
    | left =>
      have hdata : rbtt.data f.ptr = .ok f.val.data :=
        Shape.data_eq (show Shape rbtt (plug c (join f.side f.ptr f.val x.here f.sib)) from hplug)
      rw [if_pos (htest.mpr hside)]
      cases flag with
      | inorderwalk =>
        have hgo : (({ w' with x := f.ptr, dir := .walkright } : RbtreeWalk).called walkFn
            f.val.data) = (w.called walkFn f.val.data).moved (x.goUp f c) := by
          rw [RbtreeWalk.moved, Place.goUp_ptr, Place.goUp, hside]
          simp only [RbtreeWalk.called, hlcnt, hcalls]
          rfl
        rw [if_pos rfl, userCallback_ok hdata, exec_bind_ok, hgo]
        exact delivers_ok.mpr (.calls (x.goUp f c) (f.ptr, f.val) hwhole hrounds
          (Place.restIno_up_left hheading hctx hside) (Place.goUp_ptr x f c))
      | preorderwalk =>
        have hgo : ({ w' with x := f.ptr, dir := .walkright } : RbtreeWalk) =
            w.moved (x.goUp f c) := by
          rw [RbtreeWalk.moved, Place.goUp_ptr, Place.goUp, hside]
          simp only [hlcnt, hcalls]
          rfl
        rw [if_neg (by simp), hgo]
        exact delivers_ok.mpr (.moves (x.goUp f c) hwhole hrounds (Place.rest_up hheading hctx).symm)
    | right =>
      have hgo : ({ w' with x := f.ptr, dir := .walkup } : RbtreeWalk) = w.moved (x.goUp f c) := by
        rw [RbtreeWalk.moved, Place.goUp_ptr, Place.goUp, hside]
        simp only [hlcnt, hcalls]
        rfl
      rw [if_neg (fun heq => by simp [htest.mp heq] at hside), hgo]
      refine delivers_ok.mpr (.moves (x.goUp f c) hwhole hrounds ?_)
      cases flag with
      | inorderwalk => exact (Place.restIno_up_right hheading hctx hside).symm
      | preorderwalk => exact (Place.rest_up hheading hctx).symm

/-- One round at any place. -/
theorem walkRound_spec (hs : Shape rbtt x.whole) :
    Delivers (rbtt.walkRound flag (some walkFn) (w.moved x)) (Round rbtt flag walkFn w x) := by
  cases hheading : x.heading with
  | down => exact round_down hs hheading
  | up =>
    rw [RbtreeWalk.moved, hheading, walkRound]
    exact walkUp_spec hs hheading rfl rfl rfl
  | right =>
    have hchild : rbtt.child .right x.ptr = .ok (x.right.root NIL) := Shape.child_right hs
    have hrounds := Place.rounds_right hheading
    have hcome : toCome flag x = toCome flag x.goRight := by
      cases flag with
      | inorderwalk => exact (Place.restIno_right hheading).symm
      | preorderwalk => exact (Place.rest_right hheading).symm
    rw [RbtreeWalk.moved, hheading, walkRound]
    dsimp only [dirOf]
    rw [hchild, exec_bind_ok]
    by_cases hright : x.right = .nil
    · -- without a right child the round goes up at once
      have hgo := Place.goRight_nil hright
      rw [if_pos ((right_root_eq hs).mpr hright)]
      rw [hgo] at hrounds hcome
      have hup : Delivers
          (rbtt.walkUp flag (some walkFn) ⟨x.ptr, .walkright, w.lcnt, w.calls⟩)
          (Round rbtt flag walkFn w { x with heading := .up }) :=
        walkUp_spec (x := { x with heading := .up }) hs rfl rfl rfl rfl
      exact hup.mono fun res hres => Round.of_moved hres rfl hrounds hcome
    · obtain ⟨hptr, hdown⟩ := Place.goRight_of_ne hright NIL
      have hmoves : Round rbtt flag walkFn w x (some (w.moved x.goRight)) :=
        .moves x.goRight (Place.whole_goRight x) hrounds hcome
      rw [RbtreeWalk.moved, hptr, hdown] at hmoves
      rw [if_neg ((right_root_eq hs).not.mpr hright)]
      exact delivers_ok.mpr hmoves

end Rounds

/-! ## The whole walk -/

/-- What a walk with `lcnt` calls to go does with the cells that are still to come: the node it
hands back and the calls. -/
def visits (rbtt : RbtreeTable) (flag : WalkFlag) (walkFn : List Ptr → Ptr → Int) :
    Nat → List Ptr → List (Ptr × RbVal) → Ptr × List Ptr
  | _, calls, [] => (NULL, calls)
  | lcnt, calls, x :: cells =>
    if walkFn calls x.2.data ≠ 0 ∨ lcnt = 1 then (rbtt.stopNode flag x.1, calls ++ [x.2.data])
    else visits rbtt flag walkFn (lcnt - 1) (calls ++ [x.2.data]) cells

/-- A walk from a place of the tour does with the cells what it is to do. -/
theorem walkLoop_spec {rbtt : RbtreeTable} {t : Tree RbVal} (hs : Shape rbtt t) (flag : WalkFlag)
    (walkFn : List Ptr → Ptr → Int) : ∀ (fuel : Nat) (x : Place RbVal) (w : RbtreeWalk),
      x.whole = t → 0 < w.lcnt → x.rounds < fuel →
      rbtt.walkLoop flag (some walkFn) fuel (w.moved x) =
        .ok (visits rbtt flag walkFn w.lcnt w.calls (toCome flag x)) := by
  intro fuel
  induction fuel with
  | zero => intro x w _ _ hfuel; omega
  | succ fuel ih =>
    intro x w hx hlcnt hfuel
    have hsx : Shape rbtt x.whole := hx ▸ hs
    have hne : x.ptr ≠ NIL := Shape.ptr_ne_NIL hsx
    obtain ⟨res, hrun, hround⟩ := @walkRound_spec rbtt flag walkFn w x hsx
    rw [walkLoop, if_neg (by simp [RbtreeWalk.moved, hlcnt.ne', hne]), hrun, exec_bind_ok]
    cases hround with
    | ended hnil =>
      rw [hnil]
      rfl
    | moves y hy hrounds hsame =>
      rw [hsame]
      exact ih y w (hy.trans hx) hlcnt (by omega)
    | calls y cell hy hrounds hcons hptr =>
      rw [hcons, visits]
      by_cases hstop : walkFn w.calls cell.2.data ≠ 0 ∨ w.lcnt = 1
      · -- the next round finds no calls to go
        have hnone : (w.called walkFn cell.2.data).lcnt = 0 := by
          simp only [RbtreeWalk.called, ulongPred, hlcnt.ne', if_false]
          split_ifs with hret
          · rfl
          · have := hstop.resolve_left hret
            omega
        obtain ⟨fuel, rfl⟩ : ∃ n, fuel = n + 1 := ⟨fuel - 1, by omega⟩
        rw [if_pos hstop, ← hptr]
        dsimp only
        rw [walkLoop, if_pos (.inl hnone)]
        rfl
      · have hboth := not_or.mp hstop
        have hpred : (w.called walkFn cell.2.data).lcnt = w.lcnt - 1 := by
          simp only [RbtreeWalk.called, ulongPred, hlcnt.ne', if_false, if_neg hboth.1]
        rw [if_neg hstop]
        have hrest := ih y (w.called walkFn cell.2.data) (hy.trans hx) (by rw [hpred]; omega)
          (by omega)
        rw [hpred] at hrest
        exact hrest

/-- The callback gets the next user nodes. -/
theorem visits_calls (rbtt : RbtreeTable) (flag : WalkFlag) (walkFn : List Ptr → Ptr → Int)
    (cells : List (Ptr × RbVal)) : ∀ {lcnt : Nat} (calls : List Ptr), 0 < lcnt →
      (visits rbtt flag walkFn lcnt calls cells).2 =
        callsOf walkFn calls ((cells.map fun x => x.2.data).take lcnt) := by
  induction cells with
  | nil =>
    intro lcnt calls _
    simp [visits, callsOf]
  | cons x cells ih =>
    intro lcnt calls hlcnt
    obtain ⟨n, rfl⟩ : ∃ n, lcnt = n + 1 := ⟨lcnt - 1, by omega⟩
    rw [visits, List.map_cons, List.take_succ_cons, callsOf]
    by_cases hret : walkFn calls x.2.data ≠ 0
    · rw [if_pos (.inl hret), if_pos hret]
    · rw [if_neg hret]
      cases n with
      | zero => rw [if_pos (.inr rfl), List.take_zero, callsOf]
      | succ n =>
        rw [if_neg (by simp [hret])]
        exact ih _ (Nat.succ_pos n)

/-- A walk stands at the node of its last call, or at the left child. -/
theorem Shape.stopNode_mem {rbtt : RbtreeTable} {t : Tree RbVal} (hs : Shape rbtt t)
    (flag : WalkFlag) {p : Ptr} (hp : p ∈ t.ptrs) : rbtt.stopNode flag p ∈ t.ptrs := by
  obtain ⟨c, v, l, r, rfl⟩ := exists_plug_of_mem hp
  have hchild := hs.child_left
  cases flag with
  | inorderwalk => exact hp
  | preorderwalk =>
    simp only [stopNode, hchild]
    cases l with
    | nil => exact hp
    | node q w l' r' =>
      have hq : q ∈ (plug c (.node p v (.node q w l' r') r)).ptrs := by
        rw [mem_ptrs_plug]
        simp [ptrs]
      rw [root_node, if_neg (hs.ne_NIL hq)]
      exact hq

/-- The walk hands back no node, or a node of the tree. -/
theorem visits_fst {rbtt : RbtreeTable} {t : Tree RbVal} (hs : Shape rbtt t) (flag : WalkFlag)
    (walkFn : List Ptr → Ptr → Int) {cells : List (Ptr × RbVal)}
    (hcells : ∀ x ∈ cells, x.1 ∈ t.ptrs) : ∀ (lcnt : Nat) (calls : List Ptr),
      (visits rbtt flag walkFn lcnt calls cells).1 = NULL ∨
        (visits rbtt flag walkFn lcnt calls cells).1 ∈ t.ptrs := by
  induction cells with
  | nil => exact fun _ _ => .inl rfl
  | cons x cells ih =>
    intro lcnt calls
    rw [visits]
    split_ifs
    · exact .inr (hs.stopNode_mem flag (hcells x List.mem_cons_self))
    · exact ih (fun y hy => hcells y (List.mem_cons_of_mem _ hy)) _ _

/-- The cells of the tree in the order of a walk. -/
def cellsOf : WalkFlag → Tree RbVal → List (Ptr × RbVal)
  | .inorderwalk, t => t.ino
  | .preorderwalk, t => t.pre

/-- The elements of the tree in the order of a walk. -/
def order (flag : WalkFlag) (t : Tree RbVal) : List (Ptr × Ptr) :=
  (cellsOf flag t).map fun x => (x.1, x.2.data)

theorem cellsOf_perm (flag : WalkFlag) (t : Tree RbVal) :
    ((cellsOf flag t).map Prod.fst).Perm t.ptrs := by
  cases flag with
  | inorderwalk => exact t.map_fst_ino_perm
  | preorderwalk =>
    rw [cellsOf, map_fst_pre]

theorem mem_ptrs_of_cellsOf {flag : WalkFlag} {t : Tree RbVal} {x : Ptr × RbVal}
    (hx : x ∈ cellsOf flag t) : x.1 ∈ t.ptrs :=
  (cellsOf_perm flag t).mem_iff.mp (List.mem_map_of_mem hx)

theorem nodup_order {rbtt : RbtreeTable} {t : Tree RbVal} (hs : Shape rbtt t) (flag : WalkFlag) :
    ((order flag t).map Prod.fst).Nodup := by
  rw [order, List.map_map]
  exact (cellsOf_perm flag t).nodup_iff.mpr hs.holds.nodup

/-- The recursive preorder traversal delivers the preorder sequence. -/
theorem rpreorder_spec {h : Heap RbtreeNode} (t : Tree RbVal) :
    ∀ (fuel : Nat) (par : Ptr), Rep h par t → t.size < fuel →
      rpreorder h fuel (t.root NIL) = .ok (order .preorderwalk t) := by
  induction t with
  | nil =>
    intro fuel par _ hlt
    obtain ⟨fuel, rfl⟩ := Nat.exists_eq_succ_of_ne_zero (by omega : fuel ≠ 0)
    rw [rpreorder, root_nil, if_pos rfl]
    rfl
  | node p v l r ihl ihr =>
    intro fuel par hrep hlt
    obtain ⟨hp, hget, hl, hr⟩ := hrep
    simp only [size] at hlt
    obtain ⟨fuel, rfl⟩ := Nat.exists_eq_succ_of_ne_zero (by omega : fuel ≠ 0)
    rw [rpreorder, root_node, if_neg (show p ≠ NIL from hp), Heap.deref_ok hget, exec_bind_ok]
    have hwl := ihl fuel p hl (by omega)
    have hwr := ihr fuel p hr (by omega)
    change (rpreorder h fuel (l.root NIL) >>= fun left => rpreorder h fuel (r.root NIL) >>=
      fun right => pure ((p, v.data) :: (left ++ right))) = _
    rw [hwl, exec_bind_ok, hwr, exec_bind_ok]
    simp [order, cellsOf, pre]

theorem traversal_eq {rbtt : RbtreeTable} {t : Tree RbVal} (hs : Shape rbtt t) (flag : WalkFlag) :
    rbtt.traversal flag = .ok (order flag t) := by
  cases flag with
  | inorderwalk => exact inorder_eq hs
  | preorderwalk =>
    rw [traversal, preorder, hs.holds.root_eq]
    exact rpreorder_spec t _ _ hs.holds.rep hs.size_lt_fuel

/-- `lcnt` at the start of a walk. -/
def startCount (cnt : Int) : Nat := if cnt = 0 then 0xffffffff else cnt.toNat

theorem startCount_eq {cnt : Int} (hcnt : 0 ≤ cnt ∧ cnt < 2 ^ 31) :
    (if cnt = 0 then 0xffffffff else (cnt % 2 ^ 64).toNat) = startCount cnt := by
  unfold startCount
  split_ifs
  · rfl
  · rw [Int.emod_eq_of_lt hcnt.1 (by omega)]

theorem noCount : (0 : Int) ≤ 0 ∧ (0 : Int) < 2 ^ 31 := by decide

theorem startCount_pos {cnt : Int} (hcnt : 0 ≤ cnt ∧ cnt < 2 ^ 31) : 0 < startCount cnt := by
  unfold startCount
  split_ifs
  · decide
  · omega

/-- A walk from a node goes on behind it. -/
theorem walkNode_place {rbtt : RbtreeTable} {t : Tree RbVal} (hs : Sound rbtt t)
    (walkFn : List Ptr → Ptr → Int) {cnt : Int} (hcnt : 0 ≤ cnt ∧ cnt < 2 ^ 31) (flag : WalkFlag)
    {x : Place RbVal} (hx : x.whole = t) (hheading : x.heading = .right) :
    rbtt.walkNode x.ptr (some walkFn) cnt flag =
      .ok (visits rbtt flag walkFn (startCount cnt) [] (toCome flag x)) := by
  have hne : x.ptr ≠ NULL := Shape.ptr_ne_NULL (hx ▸ hs.shape)
  have hsize := hs.shape.holds.size_le
  have hrounds := x.rounds_le
  have hloop := walkLoop_spec hs.shape flag walkFn (3 * rbtt.nodes.bound + 2) x
    ⟨x.ptr, .walkright, startCount cnt, []⟩ hx (startCount_pos hcnt) (by rw [hx] at hrounds; omega)
  rw [RbtreeWalk.moved, hheading] at hloop
  rw [walkNode, validateHandle_ok hs.magic, exec_bind_ok]
  dsimp only
  rw [if_neg hne, startCount_eq hcnt]
  exact hloop

/-- At the root all cells are still to come. -/
theorem toCome_root (flag : WalkFlag) (p : Ptr) (v : RbVal) (l r : Tree RbVal) :
    toCome flag ⟨[], p, v, l, r, .down⟩ = cellsOf flag (.node p v l r) := by
  cases flag with
  | inorderwalk => simp [toCome, cellsOf, Place.restIno, Place.here, Ctx.inoAfter]
  | preorderwalk => simp [toCome, cellsOf, Place.rest, Place.here, Ctx.preAfter]

/-- A walk from the beginning comes to all cells. -/
theorem walkNode_null {rbtt : RbtreeTable} {t : Tree RbVal} (hs : Sound rbtt t)
    (walkFn : List Ptr → Ptr → Int) {cnt : Int} (hcnt : 0 ≤ cnt ∧ cnt < 2 ^ 31) (flag : WalkFlag) :
    t = .nil ∧ rbtt.walkNode NULL (some walkFn) cnt flag = .ok (NIL, []) ∨
      rbtt.walkNode NULL (some walkFn) cnt flag =
        .ok (visits rbtt flag walkFn (startCount cnt) [] (cellsOf flag t)) := by
  rw [walkNode, validateHandle_ok hs.magic, exec_bind_ok]
  dsimp only
  rw [if_pos rfl, startCount_eq hcnt, hs.shape.holds.root_eq, nul_rbtreeNode]
  cases t with
  | nil =>
    left
    rw [root_nil, walkLoop, if_pos (.inr rfl)]
    exact ⟨rfl, rfl⟩
  | node p v l r =>
    right
    let x : Place RbVal := ⟨[], p, v, l, r, .down⟩
    have hsize := hs.shape.holds.size_le
    have hrounds := x.rounds_le
    rw [← toCome_root]
    exact walkLoop_spec hs.shape flag walkFn (3 * rbtt.nodes.bound + 2) x
      ⟨p, .walkdown, startCount cnt, []⟩ rfl (startCount_pos hcnt) (by
        have hwhole : x.whole.size ≤ rbtt.nodes.bound := hsize
        omega)

theorem walkStart_null (rbtt : RbtreeTable) : rbtt.walkStart NULL = .ok NULL :=
  if_neg (not_not.mpr rfl)

/-- The user node of the node that a walk hands back. -/
theorem stdRbtreeWalk_of_node {rbtt : RbtreeTable} {t : Tree RbVal} (hs : Sound rbtt t)
    {data x y : Ptr} {calls : List Ptr} {walkFn : Option (List Ptr → Ptr → Int)} {cnt : Int}
    {flag : WalkFlag} (hstart : rbtt.walkStart data = .ok x)
    (hwalk : rbtt.walkNode x walkFn cnt flag = .ok (y, calls)) :
    (y = NULL ∨ y = NIL → rbtt.stdRbtreeWalk data walkFn cnt flag = .ok (NULL, calls)) ∧
      ∀ d, (y, d) ∈ seq t → rbtt.stdRbtreeWalk data walkFn cnt flag = .ok (d, calls) := by
  rw [stdRbtreeWalk, validateHandle_ok hs.magic, exec_bind_ok, hstart, exec_bind_ok, hwalk,
    exec_bind_ok]
  dsimp only
  constructor
  · intro hend
    rw [if_pos hend]
    rfl
  · intro d hmem
    obtain ⟨hnil, hnull⟩ := hs.shape.ptr_of_mem hmem
    rw [if_neg (not_or.mpr ⟨hnull, hnil⟩), hs.shape.data_of_mem hmem]
    rfl

theorem exists_mem_seq {t : Tree RbVal} {p : Ptr} (hp : p ∈ t.ptrs) : ∃ d, (p, d) ∈ seq t := by
  obtain ⟨⟨q, d⟩, hmem, rfl⟩ := List.mem_map.mp ((map_fst_seq_perm t).mem_iff.mpr hp)
  exact ⟨d, hmem⟩

/-- The user nodes of cells. -/
def datas (cells : List (Ptr × RbVal)) : List Ptr := cells.map fun x => x.2.data

theorem datas_cellsOf (flag : WalkFlag) (t : Tree RbVal) :
    datas (cellsOf flag t) = (order flag t).map Prod.snd := by
  rw [order, List.map_map]
  rfl

/-- A walk over cells of the tree makes the calls for their user nodes. -/
theorem stdRbtreeWalk_visits {rbtt : RbtreeTable} {t : Tree RbVal} (hs : Sound rbtt t)
    {walkFn : List Ptr → Ptr → Int} {cnt : Int} (hcnt : 0 ≤ cnt ∧ cnt < 2 ^ 31) {flag : WalkFlag}
    {data x : Ptr} {cells : List (Ptr × RbVal)} (hcells : ∀ y ∈ cells, y.1 ∈ t.ptrs)
    (hstart : rbtt.walkStart data = .ok x)
    (hwalk : rbtt.walkNode x (some walkFn) cnt flag =
      .ok (visits rbtt flag walkFn (startCount cnt) [] cells)) :
    ∃ d, rbtt.stdRbtreeWalk data (some walkFn) cnt flag =
      .ok (d, callsOf walkFn [] ((datas cells).take (startCount cnt))) := by
  obtain ⟨hnull, hnode⟩ := stdRbtreeWalk_of_node hs hstart hwalk
  rw [datas, ← visits_calls rbtt flag walkFn cells [] (startCount_pos hcnt)]
  rcases visits_fst hs.shape flag walkFn hcells (startCount cnt) [] with h0 | hmem
  · exact ⟨NULL, hnull (.inl h0)⟩
  · obtain ⟨d, hd⟩ := exists_mem_seq hmem
    exact ⟨d, hnode d hd⟩

/-- A walk from the beginning makes the calls for the elements in order. -/
theorem stdRbtreeWalk_all {rbtt : RbtreeTable} {t : Tree RbVal} (hs : Sound rbtt t)
    (walkFn : List Ptr → Ptr → Int) {cnt : Int} (hcnt : 0 ≤ cnt ∧ cnt < 2 ^ 31) (flag : WalkFlag)
    {data : Ptr} (hstart : rbtt.walkStart data = .ok NULL) :
    ∃ d, rbtt.stdRbtreeWalk data (some walkFn) cnt flag =
      .ok (d, callsOf walkFn [] (((order flag t).map Prod.snd).take (startCount cnt))) := by
  rw [← datas_cellsOf]
  rcases walkNode_null hs walkFn hcnt flag with ⟨rfl, hwalk⟩ | hwalk
  · refine ⟨NULL, ((stdRbtreeWalk_of_node hs hstart hwalk).1 (.inr rfl)).trans ?_⟩
    cases flag with
    | inorderwalk => simp [datas, cellsOf, ino, callsOf]
    | preorderwalk => simp [datas, cellsOf, pre, callsOf]
  · exact stdRbtreeWalk_visits hs hcnt (fun y hy => mem_ptrs_of_cellsOf hy) hstart hwalk

/-! ## Result -/

/-- A walk with the count `cnt` calls back for the first `cnt` elements of the recursive traversal,
or for all of them if `cnt` is 0, until the callback returns something else than 0; it does so
exactly when `cnt` is not 0, or there are at most `0xffffffff` elements, or the callback stops the
walk before. -/
theorem rbtree_walk_iff (cmp : Ptr → Ptr → Int) (hcmp : TotalPreorder cmp) (ops : List TreeOp)
    (hops : NonNull ops) (flag : WalkFlag) :
    ∃ rbtt s, runAll (stdRbtreeCreate cmp) ops = .ok rbtt ∧ rbtt.traversal flag = .ok s ∧
      (s.map Prod.fst).Nodup ∧
      ∀ (walkFn : List Ptr → Ptr → Int) (cnt : Int), 0 ≤ cnt ∧ cnt < 2 ^ 31 →
        ((∃ d, rbtt.stdRbtreeWalk NULL (some walkFn) cnt flag = .ok (d, callsOf walkFn []
            (if cnt = 0 then s.map Prod.snd else (s.map Prod.snd).take cnt.toNat))) ↔
          cnt ≠ 0 ∨ s.length ≤ 0xffffffff ∨ StopsWithin walkFn 0xffffffff (s.map Prod.snd)) := by
  obtain ⟨rbtt, t, hrun, hs, rfl⟩ := exists_sound hcmp _ hops
  refine ⟨rbtt, order flag t, hrun, traversal_eq hs.shape flag, nodup_order hs.shape flag, ?_⟩
  intro walkFn cnt hcnt
  obtain ⟨d, hwalk⟩ := stdRbtreeWalk_all hs walkFn hcnt flag (walkStart_null rbtt)
  rw [hwalk]
  by_cases h0 : cnt = 0
  · subst h0
    have hiff := @callsOf_take_iff Ptr walkFn 0xffffffff ((order flag t).map Prod.snd)
    rw [List.length_map] at hiff
    rw [if_pos rfl, or_iff_right (not_not.mpr rfl), ← hiff]
    constructor
    · rintro ⟨d', heq⟩
      exact (Prod.mk.inj (Except.ok.inj heq)).2
    · intro heq
      exact ⟨d, by rw [← heq]; rfl⟩
  · rw [if_neg h0]
    refine iff_of_true ⟨d, ?_⟩ (.inl h0)
    rw [startCount, if_neg h0]

/-- In the tree of `distinctOps` a walk with the count 2 comes to 10 and 20. -/
theorem rbtree_walk_iff_sample : ∃ rbtt d,
    runAll (stdRbtreeCreate compareKeys) distinctOps = .ok rbtt ∧
      rbtt.stdRbtreeWalk NULL (some fun _ _ => 0) 2 .inorderwalk = .ok (d, [10, 20]) := by
  obtain ⟨rbtt, s, hrun, hs, -, hwalk⟩ := rbtree_walk_iff compareKeys totalPreorder_compareKeys
    distinctOps (by simp [NonNull, distinctOps, TreeOp.data]) .inorderwalk
  have hinorder : (do (← runAll (stdRbtreeCreate compareKeys) distinctOps).inorder) =
      .ok [(5, 10), (7, 20), (3, 30)] := by decide +kernel
  rw [hrun, exec_bind_ok] at hinorder
  obtain rfl := Except.ok.inj (hs.symm.trans hinorder)
  obtain ⟨d, hcalls⟩ := (hwalk (fun _ _ => 0) 2 (by decide)).mpr (.inl (by decide))
  rw [callsOf_zero] at hcalls
  exact ⟨rbtt, d, hrun, hcalls⟩

/-- The first `n` insertions of a table that grows. -/
def manyOps (n : Nat) : List TreeOp := (List.range n).map fun i => .insert .above (i + 1)

theorem manyOps_nonNull (n : Nat) : NonNull (manyOps n) := by
  intro op hop
  obtain ⟨i, -, rfl⟩ := List.mem_map.mp hop
  exact Nat.succ_ne_zero i

theorem runAll_append (ops : List TreeOp) (op : TreeOp) : ∀ rbtt : RbtreeTable,
    runAll rbtt (ops ++ [op]) = (do run (← runAll rbtt ops) op) := by
  induction ops with
  | nil =>
    intro rbtt
    rw [List.nil_append, runAll, runAll, exec_bind_ok]
    cases run rbtt op <;> rfl
  | cons first ops ih =>
    intro rbtt
    rw [List.cons_append, runAll, runAll]
    cases run rbtt first with
    | error e => rfl
    | ok rbtt' => exact ih rbtt'

/-- They lead to a tree with `n` elements. -/
theorem exists_manyOps {cmp : Ptr → Ptr → Int} (hcmp : TotalPreorder cmp) (n : Nat) :
    ∃ rbtt t, runAll (stdRbtreeCreate cmp) (manyOps n) = .ok rbtt ∧ Sound rbtt t ∧
      rbtt.rbttCompare = cmp ∧ (seq t).length = n := by
  induction n with
  | zero => exact ⟨_, _, rfl, Sound.create, rfl, rfl⟩
  | succ n ih =>
    obtain ⟨rbtt, t, hrun, hs, rfl, hlen⟩ := ih
    have hops : manyOps (n + 1) = manyOps n ++ [.insert .above (n + 1)] := by
      rw [manyOps, List.range_succ, List.map_append]
      rfl
    obtain ⟨r, hins, hr⟩ := stdRbtreeInsert_spec hs hcmp .above (Nat.succ_ne_zero n)
    obtain ⟨p, hp⟩ := Malloc.succeeds_above rbtt.nodes
    rcases hr with ⟨hnone, -⟩ | ⟨z, t', xs, ys, -, -, hs', hseq, hseq', -, -, hcompare⟩
    · rw [hnone] at hp
      cases hp
    · refine ⟨r.2, t', ?_, hs', hcompare, ?_⟩
      · rw [hops, runAll_append, hrun, exec_bind_ok, run, hins]
        rfl
      · rw [hseq', ← hlen, hseq]
        simp only [List.length_append, List.length_cons]
        omega

/-- With `2 ^ 32` elements in the tree, a walk with the count 0 leaves out the last one. -/
theorem rbtree_walk_stops_short : ¬ ∀ (cmp : Ptr → Ptr → Int), TotalPreorder cmp →
    ∀ ops : List TreeOp, NonNull ops → ∀ flag : WalkFlag,
      ∃ rbtt s, runAll (stdRbtreeCreate cmp) ops = .ok rbtt ∧ rbtt.traversal flag = .ok s ∧
        ∀ (walkFn : List Ptr → Ptr → Int) (cnt : Int), 0 ≤ cnt ∧ cnt < 2 ^ 31 →
          ∃ d, rbtt.stdRbtreeWalk NULL (some walkFn) cnt flag = .ok (d, callsOf walkFn []
            (if cnt = 0 then s.map Prod.snd else (s.map Prod.snd).take cnt.toNat)) := by
  intro hclaim
  obtain ⟨rbtt, t, hrun, hs, -, hlen⟩ := exists_manyOps totalPreorder_compareKeys (2 ^ 32)
  obtain ⟨rbtt', s, hrun', hs', hwalk⟩ := hclaim compareKeys totalPreorder_compareKeys
    (manyOps (2 ^ 32)) (manyOps_nonNull _) .inorderwalk
  obtain rfl := Except.ok.inj (hrun.symm.trans hrun')
  obtain rfl := Except.ok.inj ((inorder_eq hs.shape).symm.trans hs')
  obtain ⟨d, hshould⟩ := hwalk (fun _ _ => 0) 0 (by decide)
  obtain ⟨d', hdoes⟩ := stdRbtreeWalk_all hs (fun _ _ => 0) noCount .inorderwalk
    (walkStart_null rbtt)
  rw [hdoes, if_pos rfl, callsOf_zero, callsOf_zero] at hshould
  have hcount := congrArg List.length (Prod.mk.inj (Except.ok.inj hshould)).2
  change (([] : List Ptr) ++ ((seq t).map Prod.snd).take 0xffffffff).length = _ at hcount
  rw [List.nil_append, List.nil_append, List.length_take, List.length_map, hlen] at hcount
  omega

end OpxCommonUtils.RbTree
