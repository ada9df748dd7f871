import OpxCommonUtils.Radix.Proofs.ManyHeads
import OpxCommonUtils.Radix.Proofs.Versions

/-!
# What a version walk selects

A version walk whose callback leaves the table alone is a tour of the tree that leaves out the
subtrees of old nodes. As the version of a node bounds those below it, nothing is left out that was
asked for, and the callback gets the heads with versions in the range in lexicographic order, until
the count has run out.
-/

namespace OpxCommonUtils.Radix

open Tree Trie LinkTree RtTable

/-- The head of a payload has a version in the range. -/
def isSelected (heads : Ptr → RtHead) (minVer maxVer : Nat) (v : RtVal) : Bool :=
  v.rth != NULL && decide (minVer ≤ (heads v.rth).rthVersion) &&
    decide ((heads v.rth).rthVersion ≤ maxVer)

/-- The heads among cells with versions in the range. -/
def selected (heads : Ptr → RtHead) (minVer maxVer : Nat) (cells : List (Ptr × RtVal)) : List Ptr :=
  (cells.filter fun x => isSelected heads minVer maxVer x.2).map fun x => x.2.rth

section
variable {heads : Ptr → RtHead} {minVer maxVer : Nat} {x : Ptr × RtVal}

theorem selected_cons (cells : List (Ptr × RtVal)) (hx : isSelected heads minVer maxVer x.2 = true) :
    selected heads minVer maxVer (x :: cells) = x.2.rth :: selected heads minVer maxVer cells := by
  simp [selected, hx]

theorem selected_cons_not (cells : List (Ptr × RtVal))
    (hx : ¬ isSelected heads minVer maxVer x.2 = true) :
    selected heads minVer maxVer (x :: cells) = selected heads minVer maxVer cells := by
  simp [selected, hx]

/-- A part without versions in the range is left out. -/
theorem selected_append_right {cells : List (Ptr × RtVal)} (rest : List (Ptr × RtVal))
    (hcells : ∀ y ∈ cells, ¬ isSelected heads minVer maxVer y.2 = true) :
    selected heads minVer maxVer (cells ++ rest) = selected heads minVer maxVer rest := by
  rw [selected, List.filter_append, List.filter_eq_nil_iff.mpr hcells]
  rfl

end

namespace VersionWalk

/-- The walk goes to a place of the tour. -/
def moved (w : VersionWalk) (x : Place RtVal) : VersionWalk :=
  { w with rtn := x.ptr, dir := dirOf x.heading }

/-- The walk is at a place of a tour through `t`. -/
structure AtPlace (t : Tree RtVal) (w : VersionWalk) (x : Place RtVal) : Prop where
  whole : x.whole = t
  rtn : w.rtn = x.ptr
  dir : w.dir = dirOf x.heading
  walkFn : w.walkFn = true

variable {rtt : RtTable} {t : Tree RtVal} {x : Place RtVal} {w : VersionWalk}

theorem AtPlace.moved (h : AtPlace t w x) {y : Place RtVal} (hy : y.whole = t) :
    AtPlace t (w.moved y) y := ⟨hy, rfl, rfl, h.walkFn⟩

theorem goLeft_place (hs : Shape rtt t) (h : AtPlace t w x) (hdown : x.heading = .down) (v : RtVal) :
    w.goLeft (NodeLayout.cell (x.left.root NULL) (x.right.root NULL) (Ctx.top NULL x.ctx) v) =
      w.moved x.goLeft := by
  have hdir := h.dir
  rw [hdown] at hdir
  rw [goLeft]
  simp only [cell_rtNode]
  by_cases hleft : x.left = .nil
  · rw [if_neg (not_not.mpr ((hs.left_eq_null h.whole).mpr hleft)), Place.goLeft_nil hleft,
      VersionWalk.moved, ← h.rtn]
    rfl
  · obtain ⟨hptr, hheading⟩ := Place.goLeft_of_ne hleft NULL
    rw [if_pos ((hs.left_eq_null h.whole).not.mpr hleft), VersionWalk.moved, hptr, hheading,
      ← hdir]

/-- The table with the node of a place locked. -/
def lockNode (rtt : RtTable) (x : Place RtVal) : RtTable :=
  { rtt with
    nodes := rtt.nodes.set x.ptr
      (NodeLayout.cell (x.left.root NULL) (x.right.root NULL) (Ctx.top NULL x.ctx)
        { x.val with lock := x.val.lock + 1 }) }

/-- An old node is left behind with all below it; the head of another one gets a call if its version
is in the range. -/
theorem walkDown_place (hs : Shape rtt t) (h : AtPlace t w x) (hdown : x.heading = .down) :
    walkDown rtt w = .ok (if x.val.version < w.minVer then ⟨rtt, .loop { w with dir := .walkup }⟩
      else if isSelected rtt.heads w.minVer w.maxVer x.val = true then
        ⟨lockNode rtt x, .callback { w with lcnt := ulongPred w.lcnt }⟩
      else ⟨rtt, .loop (w.moved x.goLeft)⟩) := by
  have hcalls : w.calls rtt (NodeLayout.cell (x.left.root NULL) (x.right.root NULL)
      (Ctx.top NULL x.ctx) x.val) = isSelected rtt.heads w.minVer w.maxVer x.val := by
    rw [VersionWalk.calls, isSelected, h.walkFn, Bool.and_true]
    rfl
  have hget := hs.get_place h.whole
  rw [walkDown, h.rtn, Heap.deref_ok hget, exec_bind_ok, hcalls, Heap.update_ok hget,
    goLeft_place hs h hdown]
  by_cases hold : x.val.version < w.minVer
  · rw [if_pos hold]
    exact if_pos hold
  · rw [if_neg hold]
    refine (if_neg hold).trans ?_
    split <;> rfl

theorem walkRight_place (hs : Shape rtt t) (h : AtPlace t w x) :
    walkRight rtt w = .ok ⟨rtt, .loop (w.moved x.goRight)⟩ := by
  rw [walkRight, h.rtn, Heap.deref_ok (hs.get_place h.whole), exec_bind_ok]
  simp only [cell_rtNode]
  by_cases hnil : x.right = .nil
  · rw [if_pos ((hs.right_eq_null h.whole).mpr hnil), Place.goRight_nil hnil, VersionWalk.moved,
      ← h.rtn]
    rfl
  · obtain ⟨hptr, hheading⟩ := Place.goRight_of_ne hnil NULL
    rw [if_neg ((hs.right_eq_null h.whole).not.mpr hnil), VersionWalk.moved, hptr, hheading]
    rfl

/-- A node that is not marked stays when the walk goes up. -/
theorem walkUp_place (hs : Shape rtt t) (h : AtPlace t w x) (hmark : x.val.marked = false) :
    x.ctx = [] ∧ walkUp rtt w = .ok ⟨rtt, .loop { w with rtn := NULL, dir := .walkup }⟩ ∨
      ∃ f c, x.ctx = f :: c ∧ walkUp rtt w = .ok ⟨rtt, .loop (w.moved (x.goUp f c))⟩ := by
  have hstay : ((NodeLayout.cell (x.left.root NULL) (x.right.root NULL) (Ctx.top NULL x.ctx) x.val :
      RtNode).rtnLock == 0 && (NodeLayout.cell (x.left.root NULL) (x.right.root NULL)
        (Ctx.top NULL x.ctx) x.val : RtNode).marked) ≠ true := by
    intro hgo
    exact absurd (hmark.symm.trans (Bool.and_eq_true _ _ ▸ hgo).2) (by decide)
  rw [walkUp, h.rtn, Heap.deref_ok (hs.get_place h.whole), exec_bind_ok, if_neg hstay]
  simp only [cell_rtNode]
  rcases hs.parent_place h.whole with ⟨hctx, htop⟩ | ⟨f, c, hctx, htop, hne, m, hm, hside⟩
  · rw [htop, isLeft, if_pos rfl]
    exact .inl ⟨hctx, rfl⟩
  · rw [htop, isLeft, if_neg hne, hm]
    refine .inr ⟨f, c, hctx, ?_⟩
    rw [VersionWalk.moved, Place.goUp_ptr]
    simp only [exec_bind_ok, exec_pure, hside]
    unfold Place.goUp
    cases hf : f.side with
    | left => rfl
    | right => rfl

end VersionWalk

/-! ## The whole walk -/

section
variable {rtt : RtTable} {t : Tree RtVal}

/-- A round of the climb at a node that is not marked. -/
theorem climbRound_unmarked (hs : Shape rtt t) (hmarks : ∀ x ∈ t.pre, x.2.marked = false)
    {w : VersionWalk} {c : List (Frame RtVal)} {p : Ptr} {v : RtVal} {l r : Tree RtVal}
    (heq : plug c (.node p v l r) = t) :
    VersionWalk.climbRound rtt w p = .ok ⟨rtt,
      if Ctx.top NULL c = NULL then .outside else .climb w (Ctx.top NULL c)⟩ := by
  have hstay : ((NodeLayout.cell (l.root NULL) (r.root NULL) (Ctx.top NULL c) v :
      RtNode).rtnLock == 0 && (NodeLayout.cell (l.root NULL) (r.root NULL)
        (Ctx.top NULL c) v : RtNode).marked) ≠ true := by
    intro hgo
    have hmark := hmarks (p, v) (Shape.mem_of_plug heq)
    exact absurd (hmark.symm.trans (Bool.and_eq_true _ _ ▸ hgo).2) (by decide)
  rw [VersionWalk.climbRound, hs.deref_cell heq, exec_bind_ok, if_neg hstay]
  rfl

/-- The climb finds nothing to do in a tree without marks. -/
theorem runOn_climb (hs : Shape rtt t) (hmarks : ∀ x ∈ t.pre, x.2.marked = false)
    (w : VersionWalk) : ∀ (c : List (Frame RtVal)) (fuel : Nat) (S : Tree RtVal), plug c S = t →
      S ≠ .nil → c.length + 2 ≤ fuel →
      TableState.runOn fuel ⟨rtt, .climb w (S.root NULL)⟩ = .ok ([], rtt) := by
  intro c
  induction c with
  | nil =>
    intro fuel S heq hS hfuel
    obtain ⟨fuel, rfl⟩ : ∃ n, fuel = n + 2 := ⟨fuel - 2, by omega⟩
    cases S with
    | nil => exact absurd rfl hS
    | node p v l r =>
      change (VersionWalk.climbRound rtt w p >>= fun s' => s'.runOn (fuel + 1)) = _
      rw [climbRound_unmarked hs hmarks heq, exec_bind_ok, Ctx.top_nil, if_pos rfl]
      rfl
  | cons f c ih =>
    intro fuel S heq hS hfuel
    obtain ⟨fuel, rfl⟩ : ∃ n, fuel = n + 1 := ⟨fuel - 1, by omega⟩
    cases S with
    | nil => exact absurd rfl hS
    | node p v l r =>
      have hne := hs.frame_ne_null heq List.mem_cons_self
      change (VersionWalk.climbRound rtt w p >>= fun s' => s'.runOn fuel) = _
      rw [climbRound_unmarked hs hmarks heq, exec_bind_ok, Ctx.top_cons, if_neg hne]
      have hup := ih fuel (join f.side f.ptr f.val (.node p v l r) f.sib) heq (by simp)
        (by simpa using hfuel)
      rwa [root_join] at hup

/-- Without calls to go the walk ends. -/
theorem runOn_stopped (hs : Shape rtt t) (hmarks : ∀ x ∈ t.pre, x.2.marked = false)
    {w : VersionWalk} {x : Place RtVal} (hx : x.whole = t) (hrtn : w.rtn = x.ptr)
    (hlcnt : w.lcnt = 0) {fuel : Nat} (hfuel : t.size + 2 ≤ fuel) :
    TableState.runOn fuel ⟨rtt, .loop w⟩ = .ok ([], rtt) := by
  obtain ⟨fuel, rfl⟩ : ∃ n, fuel = n + 1 := ⟨fuel - 1, by omega⟩
  have hround : VersionWalk.loopRound rtt w = .ok ⟨rtt, .climb w x.ptr⟩ := by
    rw [VersionWalk.loopRound, if_neg (hrtn ▸ hs.place_ne_null hx), if_pos hlcnt, hrtn]
  change (VersionWalk.loopRound rtt w >>= fun s' => s'.runOn fuel) = _
  rw [hround, exec_bind_ok]
  have hlen : x.ctx.length + 1 ≤ t.size := by
    have hctx := Ctx.length_le_ptrs x.ctx
    rw [← hx, Place.whole, size_plug, Place.here, size]
    omega
  exact runOn_climb hs hmarks w x.ctx fuel x.here hx (by simp [Place.here]) (by omega)

/-- The call for a head: the node is locked, and unlocked when the callback is back. -/
theorem runOn_callback (hwalk : WalkOk ⟨rtt, .outside⟩ t) {w : VersionWalk} {x : Place RtVal}
    (hat : VersionWalk.AtPlace t w x) (hdown : x.heading = .down) (lcnt fuel : Nat) :
    TableState.runOn (fuel + 1)
        ⟨VersionWalk.lockNode rtt x, .callback { w with lcnt := lcnt }⟩ = do
      let (calls, rtt) ← TableState.runOn fuel
        ⟨rtt, .loop (VersionWalk.moved { w with lcnt := lcnt } x.goLeft)⟩
      return (x.val.rth :: calls, rtt) := by
  have hs := hwalk.shape
  let w' : VersionWalk := { w with lcnt := lcnt }
  let v' : RtVal := { x.val with lock := x.val.lock + 1 }
  have hs' : Shape (VersionWalk.lockNode rtt x) (plug x.ctx (.node x.ptr v' x.left x.right)) :=
    hs.setVal hat.whole rfl rfl rfl rfl rfl rfl
  have hrtn : w'.rtn = x.ptr := hat.rtn
  have heq : plug x.ctx (.node w'.rtn v' x.left x.right) =
      plug x.ctx (.node x.ptr v' x.left x.right) := by rw [hrtn]
  have hback := VersionWalk.callbackReturn_eq hs' heq 0
  have hval : { v' with lock := v'.lock - 1 } = x.val := by
    change { x.val with lock := x.val.lock + 1 - 1 } = x.val
    rw [UInt8.add_sub_cancel]
  have htable : ({ VersionWalk.lockNode rtt x with
      nodes := (VersionWalk.lockNode rtt x).nodes.set x.ptr
        (NodeLayout.cell (x.left.root NULL) (x.right.root NULL) (Ctx.top NULL x.ctx) x.val) } :
      RtTable) = rtt :=
    congrArg (fun nodes => { rtt with nodes := nodes })
      (Heap.set_set_self (hs.get_place hat.whole) _)
  rw [hval, hrtn, htable, if_neg (not_not.mpr rfl),
    VersionWalk.goLeft_place (w := w') hs ⟨hat.whole, hrtn, hat.dir, hat.walkFn⟩ hdown] at hback
  change ((VersionWalk.lockNode rtt x).nodes.deref w'.rtn >>= fun n =>
    VersionWalk.callbackReturn (VersionWalk.lockNode rtt x) w' 0 >>= fun s' => _) = _
  rw [hrtn, hs'.deref_cell rfl, exec_bind_ok, hback, exec_bind_ok]
  rfl

/-- The callback gets the heads asked for among the cells the tour has yet to come to, as long as
there are calls to go. -/
theorem runOn_loop (hwalk : WalkOk ⟨rtt, .outside⟩ t) (hver : Versioned rtt t) :
    ∀ (fuel : Nat) (x : Place RtVal) (w : VersionWalk), VersionWalk.AtPlace t w x → 0 < w.lcnt →
      x.rounds + x.rest.length + t.size + 2 ≤ fuel →
      TableState.runOn fuel ⟨rtt, .loop w⟩ =
        .ok ((selected rtt.heads w.minVer w.maxVer x.rest).take w.lcnt, rtt) := by
  have hs : Shape rtt t := hwalk.shape
  intro fuel
  induction fuel using Nat.strongRecOn with
  | _ fuel ih =>
  intro x w hat hlcnt hfuel
  obtain ⟨fuel, rfl⟩ : ∃ n, fuel = n + 1 := ⟨fuel - 1, by omega⟩
  change (VersionWalk.loopRound rtt w >>= fun s' => s'.runOn fuel) = _
  rw [VersionWalk.loopRound, if_neg (hat.rtn ▸ hs.place_ne_null hat.whole), if_neg hlcnt.ne',
    hat.dir]
  cases hheading : x.heading with
  | down =>
    have hrounds := Place.rounds_down hheading
    have hrest := Place.rest_down hheading
    have hnext : x.goLeft.whole = t := (Place.whole_goLeft x).trans hat.whole
    have hlen : x.rest.length = x.goLeft.rest.length + 1 := by rw [hrest, List.length_cons]
    change (VersionWalk.walkDown rtt w >>= _) = _
    rw [VersionWalk.walkDown_place hs hat hheading, exec_bind_ok]
    by_cases hold : x.val.version < w.minVer
    · -- nothing below is asked for
      let up : Place RtVal := { x with heading := .up }
      have hbelow : ∀ y ∈ x.here.pre, ¬ isSelected rtt.heads w.minVer w.maxVer y.2 = true := by
        intro y hy hsel
        have hself := (capped_plug.mp (hat.whole ▸ hver.capped)).2.self
        have hle := hself.weight_le y hy
        simp only [isSelected, Bool.and_eq_true, bne_iff_ne, decide_eq_true_eq] at hsel
        rw [headVersion, if_neg hsel.1.1] at hle
        omega
      have hrest' : x.rest = x.here.pre ++ up.rest := by simp [Place.rest, hheading, up]
      have hlen' : up.rest.length ≤ x.rest.length := by
        rw [hrest', List.length_append]
        omega
      have hrounds' : up.rounds < x.rounds := by
        simp only [Place.rounds, hheading, up, Place.here, size]
        omega
      rw [if_pos hold, hrest', selected_append_right _ hbelow]
      exact ih fuel (Nat.lt_succ_self _) up _ ⟨hat.whole, hat.rtn, rfl, hat.walkFn⟩ hlcnt (by omega)
    rw [if_neg hold]
    by_cases hcall : isSelected rtt.heads w.minVer w.maxVer x.val = true
    · obtain ⟨n, hn⟩ : ∃ n, w.lcnt = n + 1 := ⟨w.lcnt - 1, by omega⟩
      obtain ⟨fuel, rfl⟩ : ∃ n, fuel = n + 1 := ⟨fuel - 1, by omega⟩
      rw [if_pos hcall, runOn_callback hwalk hat hheading, hrest, selected_cons _ hcall, hn,
        List.take_succ_cons]
      have hgoes : TableState.runOn fuel
          ⟨rtt, .loop (VersionWalk.moved { w with lcnt := ulongPred (n + 1) } x.goLeft)⟩ =
          .ok ((selected rtt.heads w.minVer w.maxVer x.goLeft.rest).take n, rtt) := by
        cases n with
        | zero => exact runOn_stopped hs hver.unmarked hnext rfl rfl (by omega)
        | succ n =>
          exact ih fuel (by omega) x.goLeft _ ⟨hnext, rfl, rfl, hat.walkFn⟩ (Nat.succ_pos n)
            (by omega)
      rw [hgoes, exec_bind_ok]
      rfl
    · rw [if_neg hcall, hrest, selected_cons_not _ hcall]
      exact ih fuel (Nat.lt_succ_self _) x.goLeft _ (hat.moved hnext) hlcnt (by omega)
  | right =>
    have hrounds := Place.rounds_right hheading
    have hrest := Place.rest_right hheading
    change (VersionWalk.walkRight rtt w >>= _) = _
    rw [VersionWalk.walkRight_place hs hat, exec_bind_ok, ← hrest]
    exact ih fuel (Nat.lt_succ_self _) x.goRight _
      (hat.moved ((Place.whole_goRight x).trans hat.whole)) hlcnt (by rw [hrest]; omega)
  | up =>
    change (VersionWalk.walkUp rtt w >>= _) = _
    have hmark : x.val.marked = false := hver.unmarked (x.ptr, x.val) (Shape.mem_of_plug hat.whole)
    rcases VersionWalk.walkUp_place hs hat hmark with ⟨hctx, hround⟩ | ⟨f, c, hctx, hround⟩
    · have hsize : 0 < t.size := by
        rw [← hat.whole, Place.whole, size_plug, Place.here, size]
        omega
      obtain ⟨fuel, rfl⟩ : ∃ n, fuel = n + 2 := ⟨fuel - 2, by omega⟩
      rw [hround, exec_bind_ok, Place.rest_end hheading hctx]
      exact congrArg (fun calls => Except.ok (calls, rtt)) List.take_nil.symm
    · have hrounds := Place.rounds_up hheading hctx
      have hrest := Place.rest_up hheading hctx
      rw [hround, exec_bind_ok, ← hrest]
      exact ih fuel (Nat.lt_succ_self _) _ _ (hat.moved ((Place.whole_goUp hctx).trans hat.whole))
        hlcnt (by rw [hrest]; omega)

/-- A walk from the root with the count 0 hands out at most `0xffffffff` heads. -/
theorem quietVersionwalk_spec (hwalk : WalkOk ⟨rtt, .outside⟩ t) (hver : Versioned rtt t)
    (minVer maxVer : Nat) :
    rtt.quietVersionwalk NULL 0 minVer maxVer =
      .ok ((selected rtt.heads minVer maxVer t.pre).take 0xffffffff, rtt) := by
  have hs : Shape rtt t := hwalk.shape
  let w : VersionWalk := ⟨rtt.rttRoot, .walkdown, 0xffffffff, minVer, maxVer, true⟩
  change TableState.runOn (5 * rtt.nodes.bound + 5) ⟨rtt, .loop w⟩ = _
  have hsize := hs.holds.size_le
  have hroot := hs.holds.root_eq
  cases t with
  | nil =>
    have hround : VersionWalk.loopRound rtt w = .ok ⟨rtt, .outside⟩ := if_pos hroot
    change (VersionWalk.loopRound rtt w >>= fun s' => s'.runOn (5 * rtt.nodes.bound + 4)) = _
    rw [hround, exec_bind_ok]
    rfl
  | node p v l r =>
    let x : Place RtVal := ⟨[], p, v, l, r, .down⟩
    have hrest : x.rest = (Tree.node p v l r).pre := by
      simp [x, Place.rest, Place.here, Ctx.preAfter]
    have hlen : x.rest.length = (Tree.node p v l r).size := by
      rw [hrest, ← length_ptrs, ← map_fst_pre, List.length_map]
    have hrounds : x.rounds ≤ 3 * (Tree.node p v l r).size := x.rounds_le
    have hcnt : 0 < w.lcnt := show 0 < 0xffffffff by decide
    rw [runOn_loop hwalk hver _ x w ⟨rfl, hroot, rfl, rfl⟩ hcnt (by omega), hrest]

end

/-! ## Result -/

/-- The head `rth` is stored for the prefix `K`. -/
def StoredFor (rtt : RtTable) (K : List Bool) (rth : Ptr) : Prop :=
  rth ≠ NULL ∧ ∃ rn n a, rtt.nodes.get rn = some n ∧ n.rtnRth = rth ∧
    (rtt.heads rth).rdxRthAddr = some a ∧ K = firstBits (bitAt a) n.rtnBit

/-- The heads with versions in the range and their prefixes, in lexicographic order. -/
structure Selection (rtt : RtTable) (minVer maxVer : Nat) (L : List (List Bool × Ptr)) : Prop where
  sorted : L.Pairwise fun e e' => e.1 < e'.1
  mem : ∀ K rth, (K, rth) ∈ L ↔ StoredFor rtt K rth ∧ minVer ≤ (rtt.heads rth).rthVersion ∧
    (rtt.heads rth).rthVersion ≤ maxVer

/-- The version of a node is not below one stored in its subtree. -/
def Dominates (rtt : RtTable) (t : Tree RtVal) : Prop :=
  ∀ c p v l r, plug c (.node p v l r) = t → ∀ x ∈ (Tree.node p v l r).pre, x.2.rth ≠ NULL →
    (rtt.heads x.2.rth).rthVersion ≤ v.version

section
variable {rtt : RtTable} {t : Tree RtVal} {minVer maxVer : Nat}

theorem Versioned.dominates (h : Versioned rtt t) : Dominates rtt t := by
  intro c p v l r heq x hx h0
  have hself := (capped_plug.mp (heq ▸ h.capped)).2.self
  have hle := hself.weight_le x hx
  rwa [headVersion, if_neg h0] at hle

/-- The entries of the tree with versions in the range. -/
def selection (rtt : RtTable) (t : Tree RtVal) (minVer maxVer : Nat) : List (List Bool × Ptr) :=
  ((entries (view rtt.heads) t).filter fun e => isSelected rtt.heads minVer maxVer e.2.2).map
    fun e => (e.1, e.2.2.rth)

theorem Shape.storedFor_iff (hs : Shape rtt t) (K : List Bool) (rth : Ptr) :
    StoredFor rtt K rth ↔ ∃ x, (K, x) ∈ entries (view rtt.heads) t ∧ x.2.rth = rth := by
  constructor
  · rintro ⟨h0, rn, n, a, hn, rfl, ha, rfl⟩
    obtain ⟨c, v, l, r, heq, rfl⟩ := hs.locate hn
    exact ⟨(rn, v), mem_entries.mpr ⟨Shape.mem_of_plug heq, key_view_of_addr h0 ha⟩, rfl⟩
  · rintro ⟨⟨p, v⟩, hin, rfl⟩
    obtain ⟨hmem, hkey⟩ := mem_entries.mp hin
    have h0 : v.rth ≠ NULL := by
      intro hnull
      rw [(key_view_eq_none (hs.linked _ hmem)).mpr hnull] at hkey
      cases hkey
    obtain ⟨a, ha⟩ := (hs.linked _ hmem).addr h0
    obtain ⟨c, l, r, hplug⟩ := exists_plug_of_mem_pre hmem
    rw [key_view_of_addr h0 ha] at hkey
    exact ⟨h0, p, _, a, hs.get_node hplug, rfl, ha, (Option.some.inj hkey).symm⟩

theorem Shape.selection_spec (hs : Shape rtt t) (minVer maxVer : Nat) :
    Selection rtt minVer maxVer (selection rtt t minVer maxVer) where
  sorted := by
    rw [selection, List.pairwise_map]
    exact hs.wf.sorted.filter _
  mem K rth := by
    simp only [selection, List.mem_map, List.mem_filter]
    constructor
    · rintro ⟨⟨k, x⟩, ⟨hin, hsel⟩, heq⟩
      obtain ⟨rfl, rfl⟩ := Prod.mk.inj heq
      simp only [isSelected, Bool.and_eq_true, bne_iff_ne, decide_eq_true_eq] at hsel
      exact ⟨(hs.storedFor_iff _ _).mpr ⟨x, hin, rfl⟩, hsel.1.2, hsel.2⟩
    · rintro ⟨hstored, hmin, hmax⟩
      obtain ⟨x, hin, rfl⟩ := (hs.storedFor_iff _ _).mp hstored
      refine ⟨(K, x), ⟨hin, ?_⟩, rfl⟩
      simp only [isSelected, Bool.and_eq_true, bne_iff_ne, decide_eq_true_eq]
      exact ⟨⟨hstored.1, hmin⟩, hmax⟩

/-- The heads asked for among cells are those of their entries. -/
theorem selected_eq {heads : Ptr → RtHead} {cells : List (Ptr × RtVal)}
    (hlinked : ∀ x ∈ cells, Linked heads x) : selected heads minVer maxVer cells =
      ((entriesOf (view heads) cells).filter fun e =>
        isSelected heads minVer maxVer e.2.2).map fun e => e.2.2.rth := by
  have hsel : ∀ x : Ptr × RtVal, isSelected heads minVer maxVer x.2 = true → x.2.rth ≠ NULL := by
    intro x hx h0
    simp [isSelected, h0] at hx
  rw [selected, filter_cells hlinked hsel, List.map_map]
  rfl

theorem Shape.selection_heads (hs : Shape rtt t) (minVer maxVer : Nat) :
    (selection rtt t minVer maxVer).map Prod.snd = selected rtt.heads minVer maxVer t.pre := by
  rw [selected_eq hs.linked, entriesOf_pre, selection, List.map_map]
  rfl

/-- No more heads are asked for than there are cells. -/
theorem Selection.length_le {L : List (List Bool × Ptr)} (hL : Selection rtt minVer maxVer L)
    (hs : Shape rtt t) : L.length ≤ rtt.nodes.bound := by
  have hspec := hs.selection_spec minVer maxVer
  have heq : L = selection rtt t minVer maxVer := by
    refine eq_of_sorted hL.sorted hspec.sorted fun e => ?_
    rw [hL.mem e.1 e.2, hspec.mem e.1 e.2]
  calc L.length
      = (selected rtt.heads minVer maxVer t.pre).length := by
        rw [heq, ← hs.selection_heads, List.length_map]
    _ ≤ t.pre.length := by
        rw [selected, List.length_map]
        exact List.length_filter_le _ _
    _ = t.size := by rw [← length_ptrs, ← map_fst_pre, List.length_map]
    _ ≤ rtt.nodes.bound := hs.holds.size_le

theorem Shape.nodup_selected (hs : Shape rtt t) (minVer maxVer : Nat) :
    (selected rtt.heads minVer maxVer t.pre).Nodup := by
  have hpre : t.pre.Nodup := by
    have hnd := hs.holds.nodup
    rw [← map_fst_pre] at hnd
    exact hnd.of_map
  refine (hpre.filter _).map_on fun x hx y hy heq => ?_
  obtain ⟨hxt, hxs⟩ := List.mem_filter.mp hx
  obtain ⟨hyt, -⟩ := List.mem_filter.mp hy
  have h0 : x.2.rth ≠ NULL := by
    simp only [isSelected, Bool.and_eq_true, bne_iff_ne] at hxs
    exact hxs.1.1
  exact hs.rth_inj hxt hyt h0 heq

end

/-- The versions of nodes bound those below them, and a version walk with the count 0 calls back once
for each stored head with a version in the range, in lexicographic order, and for no other, and
changes nothing, exactly if there are at most `0xffffffff` such heads. -/
theorem versionwalk_selects_iff {rtt₀ rtt : RtTable} (hnew : NewTable rtt₀)
    (hreached : OpxCommonUtils.Reached VersionOp.step (fun rtt op => op.Allowed rtt) rtt₀ rtt)
    (minVer maxVer : Nat) :
    ∃ t L, Shape rtt t ∧ Dominates rtt t ∧
      Selection rtt minVer maxVer L ∧ (L.map Prod.snd).Nodup ∧
      (rtt.quietVersionwalk NULL 0 minVer maxVer = .ok (L.map Prod.snd, rtt) ↔
        L.length ≤ 0xffffffff) := by
  obtain ⟨t, hwalk, hver⟩ := Versioned.of_reached hnew hreached
  have hs : Shape rtt t := hwalk.shape
  refine ⟨t, _, hs, hver.dominates, hs.selection_spec minVer maxVer, ?_, ?_⟩
  · rw [hs.selection_heads]
    exact hs.nodup_selected minVer maxVer
  rw [quietVersionwalk_spec hwalk hver, ← List.length_map (f := Prod.snd), hs.selection_heads]
  constructor
  · intro hrun
    obtain ⟨htake, -⟩ := Prod.mk.inj (Except.ok.inj hrun)
    rw [← htake, List.length_take]
    exact Nat.min_le_left _ _
  · intro hle
    rw [List.take_of_length_le hle]

/-- The calls that store 10/8 and 10.0/16 and give the second head a version. -/
def versionOps : List VersionOp :=
  [.insert .above true 1 (fun _ => 10) 8,
    .insert .above true 2 (fun j => if j = 0 then 10 else 0) 16, .setversion 2]

/-- A walk of the version 1 gets the head of 10.0/16 only. -/
theorem versionwalk_selects_sample : ∃ rtt L,
    OpxCommonUtils.runSteps VersionOp.step versionOps
      (stdRadixCreate 32 true fun _ => default) = some rtt ∧
    Selection rtt 1 1 L ∧ rtt.quietVersionwalk NULL 0 1 1 = .ok (L.map Prod.snd, rtt) ∧
    L.map Prod.snd = [2] := by
  have hrun : ∃ rtt ∈ OpxCommonUtils.runSteps VersionOp.step versionOps
      (stdRadixCreate 32 true fun _ => default), rtt.nodes.bound ≤ 10 ∧
        (rtt.quietVersionwalk NULL 0 1 1).toOption.map Prod.fst = some [2] := by
    decide +kernel
  obtain ⟨rtt, hrtt, hbound, hcalls⟩ := hrun
  have hreached : OpxCommonUtils.Reached VersionOp.step (fun rtt op => op.Allowed rtt)
      (stdRadixCreate 32 true fun _ => default) rtt :=
    .runSteps_of_allMeet _ versionOps .init (by decide +kernel) hrtt
  obtain ⟨t, L, hs, -, hL, -, hiff⟩ :=
    versionwalk_selects_iff (newTable_create 32 true fun _ => default) hreached 1 1
  have hwalk := hiff.mpr ((hL.length_le hs).trans (hbound.trans (by decide)))
  rw [hwalk] at hcalls
  exact ⟨rtt, L, hrtt, hL, hwalk, Option.some.inj hcalls⟩

/-! ### Too many heads -/

/-- An insertion of a head that is not in the table is one the user may do. -/
theorem insert_allowed {rtt : RtTable} {M : PrefixMap} {rth : Ptr} (h : Reached 32 rtt M)
    (h0 : rth ≠ NULL) (hout : ∀ K, M K ≠ some rth) (A : Malloc RtNode) (copyOk : Bool)
    (addr : Addr) :
    TableLabel.Allowed (fun _ => false) ⟨rtt, .outside⟩ (.insert A copyOk rth addr 32) := by
  obtain ⟨t, ht, hlen⟩ := h.refines
  refine ⟨h0, rfl, hlen.ge, fun rn n hn hrth => ?_, fun w hw => by cases hw⟩
  obtain ⟨c, v, l, r, heq, rfl⟩ := ht.shape.locate hn
  have hrth : v.rth = rth := hrth
  obtain ⟨K, -, hK⟩ := ht.exists_key (Shape.mem_of_plug heq) (hrth ▸ h0)
  exact absurd (hrth ▸ hK) (hout K)

/-- The insertion of a head of version 0 leaves all versions. -/
theorem insert_versions {rtt rtt' : RtTable} (hdebug : rtt.rttDebug = false) {A : Malloc RtNode}
    {copyOk : Bool} {rth r : Ptr} {addr : Addr} {n : Nat}
    (hrun : (TableOp.insert A copyOk rth addr n).run rtt = .ok (r, rtt')) (x : Ptr) :
    (rtt'.heads x).rthVersion = (rtt.heads x).rthVersion := by
  have hdebug₁ : (writeAddr rtt rth addr).rttDebug = false := hdebug
  obtain ⟨freed, hsame, -⟩ := stdRadixInsert_same A copyOk rth n hdebug₁ _ hrun
  have hsame₁ : SameChanges rtt (writeAddr rtt rth addr) [] := .setHead rtt rfl rfl
  exact (hsame.heads x).1.trans (hsame₁.heads x).1

/-- With all `2 ^ 32` keys of 32 bits in the table, a version walk with the count 0 leaves out the
last head. -/
theorem versionwalk_stops_short : ¬ ∀ (rtt : RtTable) (minVer maxVer : Nat),
    OpxCommonUtils.Reached VersionOp.step (fun rtt op => op.Allowed rtt)
      (stdRadixCreate 32 true fun _ => default) rtt →
    ∃ t L, Shape rtt t ∧ Dominates rtt t ∧ Selection rtt minVer maxVer L ∧
      rtt.quietVersionwalk NULL 0 minVer maxVer = .ok (L.map Prod.snd, rtt) := by
  intro hclaim
  let P : RtTable → Prop := fun rtt =>
    OpxCommonUtils.Reached VersionOp.step (fun rtt op => op.Allowed rtt)
      (stdRadixCreate 32 true fun _ => default) rtt ∧ ∀ x, (rtt.heads x).rthVersion = 0
  have hinsert : ∀ {rtt rtt' : RtTable} {M : PrefixMap} {rth : Ptr} {addr : Addr},
      Reached 32 rtt M → rth ≠ NULL → (∀ K, M K ≠ some rth) → P rtt →
      (TableOp.insert .above true rth addr 32).run rtt = .ok (rth, rtt') → P rtt' := by
    intro rtt rtt' M rth addr h h0 hout hP hrun
    obtain ⟨t, ht, -⟩ := h.refines
    let op : VersionOp := .insert .above true rth addr 32
    have hallow : op.Allowed rtt := ⟨insert_allowed h h0 hout _ _ _, hP.2 rth⟩
    have hstep : op.step rtt = some rtt' := by
      have hexec : TableState.exec (.insert .above true rth addr 32) ⟨rtt, .outside⟩ =
          .ok ⟨rtt', .outside⟩ := by
        change (TableOp.run rtt (.insert .above true rth addr 32) >>= fun res =>
          Except.ok (TableState.mk res.2 .outside)) = _
        rw [hrun, exec_bind_ok]
      change (TableState.step _ _).map TableState.rtt = _
      rw [step_of_exec rfl hexec]
      rfl
    refine ⟨hP.1.step hallow hstep, fun x => ?_⟩
    rw [insert_versions ht.plain.1 hrun, hP.2]
  obtain ⟨rtt, M, ⟨hreached, hzero⟩, h, hM⟩ :=
    exists_firstKeys (P := P) ⟨.init, fun _ => rfl⟩ hinsert (2 ^ 32) le_rfl
  obtain ⟨t, L, hs, -, hL, hrun⟩ := hclaim rtt 0 0 hreached
  obtain ⟨t', hwalk, hver⟩ :=
    Versioned.of_reached (newTable_create 32 true fun _ => default) hreached
  rw [quietVersionwalk_spec hwalk hver] at hrun
  obtain ⟨hheads, -⟩ := Prod.mk.inj (Except.ok.inj hrun)
  have hle : L.length ≤ 0xffffffff := by
    rw [← List.length_map (f := Prod.snd), ← hheads, List.length_take]
    exact Nat.min_le_left _ _
  obtain ⟨t₀, ht₀, -⟩ := h.refines
  have hge : 2 ^ 32 ≤ L.length := by
    refine le_length_of_heads fun i hi => ⟨firstBits (bitAt (addrOf i)) 32, ?_⟩
    have hin := (ht₀.stored _ _).mp ((hM _ _).mpr ⟨i, hi, rfl, rfl⟩)
    exact (hL.mem _ _).mpr ⟨(ht₀.shape.storedFor_iff _ _).mpr hin, Nat.zero_le _, (hzero _).le⟩
  omega

end OpxCommonUtils.Radix
