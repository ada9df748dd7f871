import OpxCommonUtils.Radix.ChangeList

/-!
# Walks of the change list whose callback adds to it (`src/std_radical.c`)

`std_radical_walkchangelist` for a callback that may call `std_radical_appendtochangelist` on the
head it was given, as often as it likes, and leaves the list alone otherwise.
-/

namespace OpxCommonUtils.Radix

/-- What one call of the callback does: how often it appends its head, and its result. -/
structure ChangeReply where
  appends : Nat
  result : Int
  deriving DecidableEq, Repr

/-- One call of the callback: the list when it was entered, its head, and what it did. -/
structure CallbackCall where
  clhead : List Ptr
  rth : Ptr
  reply : ChangeReply
  deriving DecidableEq, Repr

/-- What a walk leaves behind: `*cbretval`, the calls it made, and the table. -/
structure CallbackWalked where
  cbretval : Int
  calls : List CallbackCall
  rtt : RtTable

namespace RtTable

/-- The callback appends its head `n` times. -/
def appendTimes (rtt : RtTable) (rth : Ptr) : Nat → Exec RtTable
  | 0 => .ok rtt
  | n + 1 => do
    let (_, rtt) ← rtt.stdRadicalAppendtochangelist rth
    rtt.appendTimes rth n

/-- The loop of `std_radical_walkchangelist` from the item `tRth` on, with the marker unlinked
(`std_radical.c:218-310`): the `i`-th call of the callback for `rth` does `walkFn i rth`. -/
def callbackLoop (walkFn : Nat → Ptr → ChangeReply) (dummy : Ptr) (maxVer : Nat) :
    Nat → RtTable → Nat → BitVec 32 → Ptr → Int → Exec CallbackWalked
  | 0, _, _, _, _, _ => .error .diverges
  | fuel + 1, rtt, i, maxnodes, tRth, cbretval => do
    if tRth = NULL then
      let rtt := rtt.setVersion dummy rtt.rttVersion
      return ⟨cbretval, [], rtt.relink (rtt.rttClhead ++ [dummy])⟩
    let hd := rtt.heads tRth
    -- the markers of other walks are skipped
    if hd.isdummy then
      callbackLoop walkFn dummy maxVer fuel rtt i maxnodes (stdDllGetnext rtt.rttClhead tRth) cbretval
    else if maxVer < hd.rthVersion then
      let rtt := rtt.setVersion dummy maxVer
      return ⟨cbretval, [], rtt.relink (insertBefore tRth dummy rtt.rttClhead)⟩
    else
      let rtt := rtt.relink (insertAfter tRth dummy rtt.rttClhead)
      let reply := walkFn i tRth
      let call : CallbackCall := ⟨rtt.rttClhead, tRth, reply⟩
      let rtt ← rtt.appendTimes tRth reply.appends
      let rtt := if 0 ≤ reply.result then rtt.setVersion dummy hd.rthVersion else rtt
      if reply.result < 0 then
        assertThat (rtt.islinked tRth)
        let l := rtt.rttClhead.erase dummy
        return ⟨reply.result, [call], rtt.relink (insertBefore tRth dummy l)⟩
      else if reply.result ≠ 0 then return ⟨reply.result, [call], rtt⟩
      else if maxnodes - 1 = 0 then return ⟨reply.result, [call], rtt⟩
      else
        let next := stdDllGetnext rtt.rttClhead dummy
        let rtt := rtt.relink (rtt.rttClhead.erase dummy)
        let w ← callbackLoop walkFn dummy maxVer fuel rtt (i + 1) (maxnodes - 1) next reply.result
        return { w with calls := call :: w.calls }

/-- `std_radical_walkchangelist` (`std_radical.c:192-311`), for a callback that may append the head
it was given. A head that keeps being appended keeps being visited, so it is the count that ends
the walk. -/
def walkchangelistAppending (rtt : RtTable) (dummy : Ptr) (walkFn : Nat → Ptr → ChangeReply)
    (maxnodes : BitVec 32) (maxVer : Nat) : Exec CallbackWalked := do
  assertThat (dummy != NULL)
  assertThat (rtt.heads dummy).isdummy
  assertThat (rtt.islinked dummy)
  let maxnodes := if maxnodes = 0 then 0xffffffff else maxnodes
  let tRth := stdDllGetnext rtt.rttClhead dummy
  let fuel := (maxnodes.toNat + 1) * (rtt.rttClhead.length + 1)
  let rtt := rtt.relink (rtt.rttClhead.erase dummy)
  callbackLoop walkFn dummy maxVer fuel rtt 0 maxnodes tRth 0

end RtTable

end OpxCommonUtils.Radix
