import OpxCommonUtils.Misc.MarkedList
import OpxCommonUtils.Misc.Steps
import OpxCommonUtils.Radix.Update

/-!
# The change list of a radix table (`src/std_radical.c`, `inc/opx/std_radical.h`)

The list behind `rtt_clhead` is the list of its members: heads of the table and markers
(`std_radical_ref_t`, the same C structure), told apart by `RDCL_DUMMY`. An item is linked when it
is a member; `std_dll_remove` and the insertions next to an item are only called on linked ones.
Left out are `rtt_radicalinuse`, which nothing reads, and the `cnt` of a walk, whose countdown has
no effect.
-/

namespace OpxCommonUtils.Radix

/-- `RDCL_DUMMY`. -/
def RDCL_DUMMY : BitVec 32 := 2

/-- `RDCL_ISDUMMY`. -/
def RtHead.isdummy (hd : RtHead) : Bool := hd.rdclFlags &&& RDCL_DUMMY != 0

/-- `rdcl_flags & RDCL_INCL`. -/
def RtHead.incl (hd : RtHead) : Bool := hd.rdclFlags &&& RDCL_INCL != 0

/-- `std_dll_getfirst`: `NULL` for an empty list. -/
def stdDllGetfirst (l : List Ptr) : Ptr := l.headD NULL

/-- `std_dll_getnext`: `NULL` behind the last item. -/
def stdDllGetnext (l : List Ptr) (item : Ptr) : Ptr := (after item l).headD NULL

/-- One call of the callback of a walk: the head, its version at that moment, and the result. -/
structure ChangeCall where
  rth : Ptr
  rthVersion : Nat
  result : Int
  deriving DecidableEq, Repr

/-- What a walk leaves behind: `*cbretval`, the calls it made, and the table. -/
structure Walked where
  cbretval : Int
  calls : List ChangeCall
  rtt : RtTable

namespace RtTable

/-- The list becomes `l`. -/
def relink (rtt : RtTable) (l : List Ptr) : RtTable := { rtt with rttClhead := l }

/-- `rth->rth_version = v`. -/
def setVersion (rtt : RtTable) (rth : Ptr) (v : Nat) : RtTable :=
  rtt.setHead rth { rtt.heads rth with rthVersion := v }

/-- `rth->rdcl_flags = f(rth->rdcl_flags)`. -/
def mapFlags (rtt : RtTable) (rth : Ptr) (f : BitVec 32 → BitVec 32) : RtTable :=
  rtt.setHead rth { rtt.heads rth with rdclFlags := f (rtt.heads rth).rdclFlags }

/-- `std_dll_islinked`. -/
def islinked (rtt : RtTable) (item : Ptr) : Bool := rtt.rttClhead.contains item

/-- The loop of `std_radical_procverwrap` from the item `rth` on (`std_radical.c:51-60`). -/
def procverwrapLoop : Nat → RtTable → Ptr → Nat → Exec (Nat × RtTable)
  | 0, _, _, _ => .error .diverges
  | fuel + 1, rtt, rth, rthVersion => do
    if rth = NULL then return (rthVersion, rtt)
    let rthVersion := if (rtt.heads rth).isdummy then rthVersion else (rthVersion + 1) % 2 ^ 64
    let rtt := rtt.setVersion rth rthVersion
    procverwrapLoop fuel rtt (stdDllGetnext rtt.rttClhead rth) rthVersion

/-- `std_radical_procverwrap` (`std_radical.c:43-63`). -/
def stdRadicalProcverwrap (rtt : RtTable) : Exec (Nat × RtTable) :=
  procverwrapLoop (rtt.rttClhead.length + 1) rtt (stdDllGetfirst rtt.rttClhead) 0

/-- `std_radical_walkconstructor` (`std_radical.c:66-80`). -/
def stdRadicalWalkconstructor (rtt : RtTable) (dummy : Ptr) : Exec RtTable := do
  assertThat (dummy != NULL)
  let rtt :=
    if (rtt.heads dummy).isdummy && rtt.islinked dummy then
      rtt.relink (rtt.rttClhead.erase dummy)
    else rtt
  let rtt := rtt.mapFlags dummy (· ||| RDCL_DUMMY)
  let rtt := rtt.relink (dummy :: rtt.rttClhead)
  return rtt.setVersion dummy 0

/-- `std_radical_walkconstructorafter` (`std_radical.c:83-101`). -/
def stdRadicalWalkconstructorafter (rtt : RtTable) (behind dummy : Ptr) : Exec RtTable := do
  assertThat (dummy != NULL)
  assertThat (behind != NULL)
  assertThat (rtt.heads behind).isdummy
  assertThat (rtt.islinked behind)
  let rtt :=
    if rtt.islinked dummy then rtt.relink (rtt.rttClhead.erase dummy) else rtt
  let rtt := rtt.mapFlags dummy (· ||| RDCL_DUMMY)
  let rtt := rtt.relink (insertAfter behind dummy rtt.rttClhead)
  return rtt.setVersion dummy (rtt.heads behind).rthVersion

/-- `std_radical_walkdestructor` (`std_radical.c:104-112`). -/
def stdRadicalWalkdestructor (rtt : RtTable) (dummy : Ptr) : Exec RtTable := do
  assertThat (dummy != NULL)
  let rtt := rtt.mapFlags dummy (· &&& ~~~RDCL_DUMMY)
  return if rtt.islinked dummy then rtt.relink (rtt.rttClhead.erase dummy) else rtt

/-- A head that is on the list leaves it (`std_radical.c:119-123`). -/
def unlistHead (rtt : RtTable) (rth : Ptr) : Exec RtTable :=
  if (rtt.heads rth).incl then do
    assertThat (rtt.islinked rth)
    return rtt.relink (rtt.rttClhead.erase rth)
  else return rtt

/-- `std_radical_appendtochangelist` (`std_radical.c:115-134`). -/
def stdRadicalAppendtochangelist (rtt : RtTable) (rth : Ptr) : Exec (Nat × RtTable) := do
  let hd ← rtt.readHead rth
  assertThat (hd.rthRtn != NULL)
  let rtt ← rtt.unlistHead rth
  let rtt := rtt.relink (rtt.rttClhead ++ [rth])
  let rtt := rtt.mapFlags rth (· ||| RDCL_INCL)
  let version := (rtt.rttVersion + 1) % 2 ^ 64
  let rtt := { rtt with rttVersion := version }
  let rtt := rtt.setVersion rth version
  let rtt := if version = 0 then { rtt with rttNwraps := rtt.rttNwraps + 1 } else rtt
  return (version, rtt)

/-- The loop of `std_radical_walkchangelist` from the item `tRth` on, with the marker unlinked
(`std_radical.c:218-310`): the `i`-th call of the callback for `rth` returns `walkFn i rth`. -/
def walkLoop (walkFn : Nat → Ptr → Int) (dummy : Ptr) (maxVer : Nat) :
    Nat → RtTable → Nat → BitVec 32 → Ptr → Int → Exec Walked
  | 0, _, _, _, _, _ => .error .diverges
  | fuel + 1, rtt, i, maxnodes, tRth, cbretval => do
    if tRth = NULL then
      let rtt := rtt.setVersion dummy rtt.rttVersion
      return ⟨cbretval, [], rtt.relink (rtt.rttClhead ++ [dummy])⟩
    let hd := rtt.heads tRth
    -- the markers of other walks are skipped
    if hd.isdummy then
      walkLoop walkFn dummy maxVer fuel rtt i maxnodes (stdDllGetnext rtt.rttClhead tRth) cbretval
    else if maxVer < hd.rthVersion then
      let rtt := rtt.setVersion dummy maxVer
      return ⟨cbretval, [], rtt.relink (insertBefore tRth dummy rtt.rttClhead)⟩
    else
      let rtt := rtt.relink (insertAfter tRth dummy rtt.rttClhead)
      let result := walkFn i tRth
      let call : ChangeCall := ⟨tRth, hd.rthVersion, result⟩
      let rtt := if 0 ≤ result then rtt.setVersion dummy hd.rthVersion else rtt
      if result < 0 then
        assertThat (rtt.islinked tRth)
        let l := rtt.rttClhead.erase dummy
        return ⟨result, [call], rtt.relink (insertBefore tRth dummy l)⟩
      else if result ≠ 0 then return ⟨result, [call], rtt⟩
      else if maxnodes - 1 = 0 then return ⟨result, [call], rtt⟩
      else
        let next := stdDllGetnext rtt.rttClhead dummy
        let rtt := rtt.relink (rtt.rttClhead.erase dummy)
        let w ← walkLoop walkFn dummy maxVer fuel rtt (i + 1) (maxnodes - 1) next result
        return { w with calls := call :: w.calls }

/-- `std_radical_walkchangelist` (`std_radical.c:192-311`), for a callback that leaves the list
alone. -/
def stdRadicalWalkchangelist (rtt : RtTable) (dummy : Ptr) (walkFn : Nat → Ptr → Int)
    (maxnodes : BitVec 32) (maxVer : Nat) : Exec Walked := do
  assertThat (dummy != NULL)
  assertThat (rtt.heads dummy).isdummy
  assertThat (rtt.islinked dummy)
  let maxnodes := if maxnodes = 0 then 0xffffffff else maxnodes
  let tRth := stdDllGetnext rtt.rttClhead dummy
  let fuel := rtt.rttClhead.length + 1
  let rtt := rtt.relink (rtt.rttClhead.erase dummy)
  walkLoop walkFn dummy maxVer fuel rtt 0 maxnodes tRth 0

end RtTable

/-! ## The flags -/

theorem and_not_incl_dummy (f : BitVec 32) :
    (f &&& ~~~RDCL_INCL) &&& RDCL_DUMMY = f &&& RDCL_DUMMY := by
  rw [BitVec.and_assoc]
  rfl

theorem and_not_incl_incl (f : BitVec 32) : (f &&& ~~~RDCL_INCL) &&& RDCL_INCL = 0 := by
  rw [BitVec.and_assoc, show ~~~RDCL_INCL &&& RDCL_INCL = 0 by decide]
  exact BitVec.and_zero

theorem or_incl_dummy (f : BitVec 32) :
    (f ||| RDCL_INCL) &&& RDCL_DUMMY = f &&& RDCL_DUMMY := by
  rw [BitVec.and_comm, BitVec.and_or_distrib_left, BitVec.and_comm,
    show RDCL_DUMMY &&& RDCL_INCL = 0 by decide]
  exact BitVec.or_zero

theorem or_and_self_flag (f m : BitVec 32) : (f ||| m) &&& m = m := by
  ext i hi
  rw [BitVec.getElem_and, BitVec.getElem_or]
  cases f[i] <;> cases m[i] <;> rfl

/-! ## Runs -/

/-- The calls of a run. -/
inductive ChangeOp where
  | insert (A : Malloc RtNode) (copyOk : Bool) (rth : Ptr) (bitlen : Nat)
  | remove (rth : Ptr)
  | appendtochangelist (rth : Ptr)
  | walkconstructor (dummy : Ptr)
  | walkconstructorafter (behind dummy : Ptr)
  | walkdestructor (dummy : Ptr)
  | walkchangelist (dummy : Ptr) (walkFn : Nat → Ptr → Int) (maxnodes : BitVec 32) (maxVer : Nat)

/-- The changes that a walk's callback took, which it says by a result that is not negative. -/
def Walked.taken (w : Walked) : List (Ptr × Nat) :=
  (w.calls.filter fun c => 0 ≤ c.result).map fun c => (c.rth, c.rthVersion)

/-- A table with the changes acknowledged for each marker since it was last put at the front. -/
structure ChangeState where
  rtt : RtTable
  acked : Ptr → List (Ptr × Nat)

namespace ChangeState

/-- The marker's acknowledgements become `l`. -/
def setAcked (s : ChangeState) (dummy : Ptr) (l : List (Ptr × Nat)) : ChangeState :=
  { s with acked := fun m => if m = dummy then l else s.acked m }

/-- One call, which may run into a failed assertion. -/
def exec : ChangeOp → ChangeState → Exec ChangeState
  | .insert A copyOk rth bitlen, s => do
    let (_, rtt) ← s.rtt.stdRadixInsert A copyOk rth bitlen
    return { s with rtt := rtt }
  | .remove rth, s => do
    let rtt ← s.rtt.stdRadixRemove rth
    return { s with rtt := rtt }
  | .appendtochangelist rth, s => do
    let (_, rtt) ← s.rtt.stdRadicalAppendtochangelist rth
    return { s with rtt := rtt }
  | .walkconstructor dummy, s => do
    let rtt ← s.rtt.stdRadicalWalkconstructor dummy
    return { s.setAcked dummy [] with rtt := rtt }
  | .walkconstructorafter behind dummy, s => do
    let rtt ← s.rtt.stdRadicalWalkconstructorafter behind dummy
    return { s.setAcked dummy (s.acked behind) with rtt := rtt }
  | .walkdestructor dummy, s => do
    let rtt ← s.rtt.stdRadicalWalkdestructor dummy
    return { s with rtt := rtt }
  | .walkchangelist dummy walkFn maxnodes maxVer, s => do
    let w ← s.rtt.stdRadicalWalkchangelist dummy walkFn maxnodes maxVer
    return { s.setAcked dummy (s.acked dummy ++ w.taken) with rtt := w.rtt }

/-- One step of a run. -/
def step (op : ChangeOp) (s : ChangeState) : Option ChangeState := (exec op s).toOption

end ChangeState

/-- The callers' side, for a memory where `marker` tells the markers from the heads: a head goes
into the table when it is not on the list, markers are not heads, a marker is placed behind another
one, and the version does not wrap. -/
def ChangeOp.Allowed (marker : Ptr → Bool) (s : ChangeState) : ChangeOp → Prop
  | .insert _ _ rth _ => marker rth = false ∧ rth ∉ s.rtt.rttClhead
  | .remove rth => marker rth = false
  | .appendtochangelist rth => marker rth = false ∧ s.rtt.rttVersion + 1 < 2 ^ 64
  | .walkconstructor dummy => marker dummy = true
  | .walkconstructorafter behind dummy => marker behind = true ∧ marker dummy = true ∧ behind ≠ dummy
  | .walkdestructor dummy => marker dummy = true
  | .walkchangelist dummy _ _ _ => marker dummy = true

instance (marker : Ptr → Bool) (s : ChangeState) : (op : ChangeOp) → Decidable (op.Allowed marker s)
  | .insert _ _ rth _ => inferInstanceAs (Decidable (marker rth = false ∧ rth ∉ s.rtt.rttClhead))
  | .remove rth => inferInstanceAs (Decidable (marker rth = false))
  | .appendtochangelist rth =>
    inferInstanceAs (Decidable (marker rth = false ∧ s.rtt.rttVersion + 1 < 2 ^ 64))
  | .walkconstructor dummy => inferInstanceAs (Decidable (marker dummy = true))
  | .walkconstructorafter behind dummy =>
    inferInstanceAs (Decidable (marker behind = true ∧ marker dummy = true ∧ behind ≠ dummy))
  | .walkdestructor dummy => inferInstanceAs (Decidable (marker dummy = true))
  | .walkchangelist dummy _ _ _ => inferInstanceAs (Decidable (marker dummy = true))

end OpxCommonUtils.Radix
