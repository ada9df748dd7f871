import OpxCommonUtils.Radix.ChangeList

/-!
# Version walks (`std_radix_versionwalk`, `src/std_radix.c`)

A walk calls back, and the callback may call the table again, so a walk is not a function of the
table but a machine: `Control` says where the program is, `TableState.exec` runs it to the next
place where the user may act. Outside walks the user inserts, removes, appends to the change list
and starts a walk; inside a callback he inserts and removes, and returns. The result of a walk is
not part of the state: `TableState.returned` reads `rtn->rtn_rth` when the climb has come to its end,
which may have freed `rtn`.
-/

namespace OpxCommonUtils.Radix

open RtTable

/-- The local variables of `std_radix_versionwalk`; `walkFn` tells whether there is a callback. -/
structure VersionWalk where
  rtn : Ptr
  dir : Dir
  lcnt : Nat
  minVer : Nat
  maxVer : Nat
  walkFn : Bool
  deriving DecidableEq

/-- Where the program is: outside all walks, at the head of the loop, in the callback for the head
of `rtn`, or at the head of the climb that follows the loop. -/
inductive Control where
  | outside
  | loop (w : VersionWalk)
  | callback (w : VersionWalk)
  | climb (w : VersionWalk) (y : Ptr)
  deriving DecidableEq

/-- A table and the walk in progress. -/
structure TableState where
  rtt : RtTable
  control : Control

namespace VersionWalk

/-- The loop goes on to the left child, or to the right when there is none
(`std_radix.c:1418-1422`). -/
def goLeft (w : VersionWalk) (n : RtNode) : VersionWalk :=
  if n.rtnLeft ≠ NULL then { w with rtn := n.rtnLeft } else { w with dir := .walkright }

/-- The head of a node gets a call (`std_radix.c:1397-1401`). -/
def calls (w : VersionWalk) (rtt : RtTable) (n : RtNode) : Bool :=
  n.rtnRth != NULL && w.walkFn && decide (w.minVer ≤ (rtt.heads n.rtnRth).rthVersion) &&
    decide ((rtt.heads n.rtnRth).rthVersion ≤ w.maxVer)

/-- `RDX_WALKDOWN` (`std_radix.c:1391-1423`), up to the callback. -/
def walkDown (rtt : RtTable) (w : VersionWalk) : Exec TableState := do
  let n ← rtt.nodes.deref w.rtn
  if n.rtnVersion < w.minVer then return ⟨rtt, .loop { w with dir := .walkup }⟩
  else if w.calls rtt n then do
    let nodes ← rtt.nodes.update w.rtn fun m => { m with rtnLock := m.rtnLock + 1 }
    return ⟨{ rtt with nodes := nodes }, .callback { w with lcnt := ulongPred w.lcnt }⟩
  else return ⟨rtt, .loop (w.goLeft n)⟩

/-- The callback returns `ret` (`std_radix.c:1407-1422`). -/
def callbackReturn (rtt : RtTable) (w : VersionWalk) (ret : Int) : Exec TableState := do
  let w := if ret ≠ 0 then { w with lcnt := 0 } else w
  let nodes ← rtt.nodes.update w.rtn fun m => { m with rtnLock := m.rtnLock - 1 }
  let n ← nodes.deref w.rtn
  return ⟨{ rtt with nodes := nodes }, .loop (w.goLeft n)⟩

/-- `RDX_WALKRIGHT` (`std_radix.c:1425-1432`). -/
def walkRight (rtt : RtTable) (w : VersionWalk) : Exec TableState := do
  let n ← rtt.nodes.deref w.rtn
  if n.rtnRight = NULL then return ⟨rtt, .loop { w with dir := .walkup }⟩
  else return ⟨rtt, .loop { w with rtn := n.rtnRight, dir := .walkdown }⟩

/-- Is `y` a left child? (`std_radix.c:1442`). -/
def isLeft (rtt : RtTable) (rtn y : Ptr) : Exec Bool :=
  if rtn = NULL then .ok false
  else do
    let n ← rtt.nodes.deref rtn
    return decide (y = n.rtnLeft)

/-- `RDX_WALKUP` (`std_radix.c:1434-1449`): an unlocked node that is marked goes. -/
def walkUp (rtt : RtTable) (w : VersionWalk) : Exec TableState := do
  let n ← rtt.nodes.deref w.rtn
  if n.rtnLock == 0 && n.marked then do
    let (rtn, dir, rtt) ← rtt.removeNode w.rtn w.dir
    return ⟨rtt, .loop { w with rtn := rtn, dir := dir }⟩
  else do
    let left ← isLeft rtt n.rtnParent w.rtn
    return ⟨rtt, .loop
      { w with rtn := n.rtnParent, dir := if left then .walkright else .walkup }⟩

/-- One round of the loop, and what follows its end (`std_radix.c:1388-1459`). -/
def loopRound (rtt : RtTable) (w : VersionWalk) : Exec TableState :=
  if w.rtn = NULL then .ok ⟨rtt, .outside⟩
  else if w.lcnt = 0 then .ok ⟨rtt, .climb w w.rtn⟩
  else match w.dir with
    | .walkdown => walkDown rtt w
    | .walkright => walkRight rtt w
    | .walkup => walkUp rtt w

/-- One round of the climb (`std_radix.c:1461-1467`). -/
def climbRound (rtt : RtTable) (w : VersionWalk) (y : Ptr) : Exec TableState := do
  let n ← rtt.nodes.deref y
  if n.rtnLock == 0 && n.marked then do
    let (y, dir, rtt) ← rtt.removeNode y w.dir
    return ⟨rtt, if y = NULL then .outside else .climb { w with dir := dir } y⟩
  else return ⟨rtt, if n.rtnParent = NULL then .outside else .climb w n.rtnParent⟩

/-- A walk begins, at the root or behind `rth` (`std_radix.c:1377-1386`). -/
def start (rtt : RtTable) (rth : Ptr) (walkFn : Bool) (cnt : Int) (minVer maxVer : Nat) :
    Exec TableState :=
  let lcnt := if cnt = 0 then 0xffffffff else (cnt % 2 ^ 64).toNat
  if rth = NULL then .ok ⟨rtt, .loop ⟨rtt.rttRoot, .walkdown, lcnt, minVer, maxVer, walkFn⟩⟩
  else
    let rtn := (rtt.heads rth).rthRtn
    if rtn = NULL then .ok ⟨rtt, .outside⟩
    else .ok ⟨rtt, .loop ⟨rtn, .walkright, lcnt, minVer, maxVer, walkFn⟩⟩

end VersionWalk

/-- What happens next: a call of the user, a callback that returns, or a round of the walk. For an
insertion the user first writes `addr` into the head. -/
inductive TableLabel where
  | insert (A : Malloc RtNode) (copyOk : Bool) (rth : Ptr) (addr : Addr) (bitlen : Nat)
  | remove (rth : Ptr)
  | appendtochangelist (rth : Ptr)
  | versionwalk (rth : Ptr) (walkFn : Bool) (cnt : Int) (minVer maxVer : Nat)
  | callbackReturn (ret : Int)
  | round

namespace TableState

/-- The user may act: no walk is in progress, or its callback runs. -/
def userActs (s : TableState) : Bool :=
  match s.control with
  | .outside | .callback _ => true
  | _ => false

/-- The step of a label, from a state in which it can happen. -/
def exec (l : TableLabel) (s : TableState) : Exec TableState :=
  match l, s.control with
  | .insert A copyOk rth addr bitlen, _ => do
    let rtt := s.rtt.setHead rth { s.rtt.heads rth with rthAddr := some addr }
    let (_, rtt) ← rtt.stdRadixInsert A copyOk rth bitlen
    return { s with rtt := rtt }
  | .remove rth, _ => do
    let rtt ← s.rtt.stdRadixRemove rth
    return { s with rtt := rtt }
  | .appendtochangelist rth, _ => do
    let (_, rtt) ← s.rtt.stdRadicalAppendtochangelist rth
    return { s with rtt := rtt }
  | .versionwalk rth walkFn cnt minVer maxVer, _ =>
    VersionWalk.start s.rtt rth walkFn cnt minVer maxVer
  | .callbackReturn ret, .callback w => VersionWalk.callbackReturn s.rtt w ret
  | .round, .loop w => VersionWalk.loopRound s.rtt w
  | .round, .climb w y => VersionWalk.climbRound s.rtt w y
  | _, _ => .ok s

/-- The label can happen here. -/
def enabled (l : TableLabel) (s : TableState) : Bool :=
  match l, s.control with
  | .insert .., _ | .remove _, _ => s.userActs
  | .appendtochangelist _, .outside | .versionwalk .., .outside => true
  | .callbackReturn _, .callback _ => true
  | .round, .loop _ | .round, .climb .. => true
  | _, _ => false

/-- One step. -/
def step (l : TableLabel) (s : TableState) : Option TableState :=
  if s.enabled l then (s.exec l).toOption else none

end TableState

/-- What a walk returns that is over with the round from `s` to `s'` (`std_radix.c:1470-1473`). -/
def TableState.returned (s s' : TableState) : Exec Ptr :=
  match s.control with
  | .climb w _ => do
    let n ← s'.rtt.nodes.deref w.rtn
    return n.rtnRth
  | _ => .ok NULL

/-! ## The user's side -/

/-- The head `rth` is that of the node `rn`. -/
def HeadOf (rtt : RtTable) (rn rth : Ptr) : Prop :=
  rth ≠ NULL ∧ ∃ n, rtt.nodes.get rn = some n ∧ n.rtnRth = rth

/-- The node stores the prefix of `bitlen` bits of the user's address `addr`. -/
def StoresPrefix (rtt : RtTable) (n : RtNode) (addr : Addr) (bitlen : Nat) : Prop :=
  n.rtnBit = bitlen ∧ ∃ a, (rtt.heads n.rtnRth).rdxRthAddr = some a ∧
    firstBits (bitAt a) bitlen = firstBits (bitAt (rtt.queryAddr addr)) bitlen

/-- What a user may do who keeps to the interface, with memory where `marker` tells markers from
heads: the head he inserts is not in the table, or is there for the same prefix; he removes heads
that are in the table. In a callback he removes the head he visits, and inserts for its prefix. -/
def TableLabel.Allowed (marker : Ptr → Bool) (s : TableState) : TableLabel → Prop
  | .insert _ _ rth addr bitlen =>
    rth ≠ NULL ∧ marker rth = false ∧ bitlen ≤ s.rtt.rttMaxaddrlen ∧
    (∀ rn n, s.rtt.nodes.get rn = some n → n.rtnRth = rth →
      n.marked = false ∧ StoresPrefix s.rtt n addr bitlen) ∧
    (∀ w, s.control = .callback w →
      ∃ n, s.rtt.nodes.get w.rtn = some n ∧ StoresPrefix s.rtt n addr bitlen)
  | .remove rth =>
    (∃ rn, HeadOf s.rtt rn rth) ∧ ∀ w, s.control = .callback w → HeadOf s.rtt w.rtn rth
  | .appendtochangelist rth => ∃ rn, HeadOf s.rtt rn rth
  | .versionwalk rth _ _ _ _ => rth = NULL ∨ ∃ rn, HeadOf s.rtt rn rth
  | .callbackReturn _ | .round => True

instance (rtt : RtTable) (rn rth : Ptr) : Decidable (HeadOf rtt rn rth) :=
  decidable_of_iff (rth ≠ NULL ∧ ∃ n ∈ rtt.nodes.get rn, n.rtnRth = rth) Iff.rfl

instance (rtt : RtTable) (n : RtNode) (addr : Addr) (bitlen : Nat) :
    Decidable (StoresPrefix rtt n addr bitlen) :=
  decidable_of_iff (n.rtnBit = bitlen ∧ ∃ a ∈ (rtt.heads n.rtnRth).rdxRthAddr,
    firstBits (bitAt a) bitlen = firstBits (bitAt (rtt.queryAddr addr)) bitlen) Iff.rfl

/-- Live cells are below the bound. -/
instance (rtt : RtTable) (rth : Ptr) : Decidable (∃ rn, HeadOf rtt rn rth) :=
  decidable_of_iff (∃ rn < rtt.nodes.bound, HeadOf rtt rn rth)
    ⟨fun ⟨rn, _, h⟩ => ⟨rn, h⟩, fun ⟨rn, h⟩ => ⟨rn, h.2.elim fun _ hn =>
      rtt.nodes.lt_bound hn.1, h⟩⟩

instance (h : Heap RtNode) (P : RtNode → Prop) [DecidablePred P] :
    Decidable (∀ rn n, h.get rn = some n → P n) :=
  decidable_of_iff (∀ rn < h.bound, ∀ n ∈ h.get rn, P n)
    ⟨fun hp rn n hn => hp rn (h.lt_bound hn) n hn, fun hp rn _ n hn => hp rn n hn⟩

instance (control : Control) (P : VersionWalk → Prop) [DecidablePred P] :
    Decidable (∀ w, control = .callback w → P w) :=
  match control with
  | .callback w => decidable_of_iff (P w)
    ⟨fun hp _ hw => Control.callback.inj hw ▸ hp, fun hp => hp w rfl⟩
  | .outside | .loop _ | .climb .. => .isTrue fun _ hw => nomatch hw

instance (marker : Ptr → Bool) (s : TableState) :
    (l : TableLabel) → Decidable (l.Allowed marker s)
  | .insert _ _ rth addr bitlen => inferInstanceAs (Decidable
    (rth ≠ NULL ∧ marker rth = false ∧ bitlen ≤ s.rtt.rttMaxaddrlen ∧
      (∀ rn n, s.rtt.nodes.get rn = some n → n.rtnRth = rth →
        n.marked = false ∧ StoresPrefix s.rtt n addr bitlen) ∧
      (∀ w, s.control = .callback w →
        ∃ n ∈ s.rtt.nodes.get w.rtn, StoresPrefix s.rtt n addr bitlen)))
  | .remove rth => inferInstanceAs (Decidable
    ((∃ rn, HeadOf s.rtt rn rth) ∧ ∀ w, s.control = .callback w → HeadOf s.rtt w.rtn rth))
  | .appendtochangelist rth => inferInstanceAs (Decidable (∃ rn, HeadOf s.rtt rn rth))
  | .versionwalk rth _ _ _ _ =>
    inferInstanceAs (Decidable (rth = NULL ∨ ∃ rn, HeadOf s.rtt rn rth))
  | .callbackReturn _ | .round => .isTrue trivial

end OpxCommonUtils.Radix
