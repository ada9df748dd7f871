import OpxCommonUtils.Radix.Walk

/-!
# Full walks (`std_radix_walk`, `src/std_radix.c`)

The callback of a full walk gets the heads one after the other and leaves the table alone, so the
walk is a function: `walkFn` gives what the callback returns after the calls made so far. A walk
that stops hands back the head of the node it is at then, from which the user may resume it.
-/

namespace OpxCommonUtils.Radix

open RtTable

/-- The local variables of `std_radix_walk`, and the heads the callback got. -/
structure RadixWalk where
  rtn : Ptr
  dir : Dir
  lcnt : Nat
  calls : List Ptr
  deriving DecidableEq

namespace RadixWalk

/-- `RDXUSERCALLBACK` (`std_radix.c:1288-1300`). -/
def userCallback (walkFn : Option (List Ptr → Ptr → Int)) (w : RadixWalk) (rth : Ptr) : RadixWalk :=
  let lcnt := ulongPred w.lcnt
  match walkFn with
  | none => { w with lcnt := lcnt }
  | some fn =>
    { w with lcnt := if fn w.calls rth ≠ 0 then 0 else lcnt, calls := w.calls ++ [rth] }

/-- A round of the loop (`std_radix.c:1327-1358`), `none` where the walk returns from the root. -/
def round (nodes : Heap RtNode) (walkFn : Option (List Ptr → Ptr → Int)) (w : RadixWalk) :
    Exec (Option RadixWalk) := do
  let n ← nodes.deref w.rtn
  match w.dir with
  | .walkdown =>
    let w := if n.rtnRth ≠ NULL then w.userCallback walkFn n.rtnRth else w
    if n.rtnLeft ≠ NULL then return some { w with rtn := n.rtnLeft }
    else return some { w with dir := .walkright }
  | .walkright =>
    if n.rtnRight = NULL then return some { w with dir := .walkup }
    else return some { w with dir := .walkdown, rtn := n.rtnRight }
  | .walkup =>
    if n.rtnParent = NULL then return none
    else do
      let parent ← nodes.deref n.rtnParent
      let dir := if w.rtn = parent.rtnLeft then .walkright else w.dir
      return some { w with rtn := n.rtnParent, dir := dir }

/-- The loop with the end of the routine (`std_radix.c:1326-1366`): the head handed back and the
calls. -/
def loop (nodes : Heap RtNode) (walkFn : Option (List Ptr → Ptr → Int)) :
    Nat → RadixWalk → Exec (Ptr × List Ptr)
  | 0, _ => .error .diverges
  | fuel + 1, w =>
    if w.rtn = NULL then .ok (NULL, w.calls)
    else if w.lcnt = 0 then do
      let n ← nodes.deref w.rtn
      return (n.rtnRth, w.calls)
    else do
      match ← round nodes walkFn w with
      | none => return (NULL, w.calls)
      | some w => loop nodes walkFn fuel w

end RadixWalk

/-- `std_radix_walk` (`std_radix.c:1302-1367`): the head handed back and the heads the callback got.
A tour comes to a node three times at most. -/
def RtTable.stdRadixWalk (rtt : RtTable) (rth : Ptr) (walkFn : Option (List Ptr → Ptr → Int))
    (cnt : Int) : Exec (Ptr × List Ptr) :=
  let lcnt := if cnt = 0 then 0xffffffff else (cnt % 2 ^ 64).toNat
  let fuel := 3 * rtt.nodes.bound + 2
  if rth = NULL then RadixWalk.loop rtt.nodes walkFn fuel ⟨rtt.rttRoot, .walkdown, lcnt, []⟩
  else
    let rtn := (rtt.heads rth).rthRtn
    if rtn = NULL then .ok (NULL, [])
    else RadixWalk.loop rtt.nodes walkFn fuel ⟨rtn, .walkright, lcnt, []⟩

end OpxCommonUtils.Radix
