import OpxCommonUtils.Misc.Traced

/-!
# The merge sort

`std_merge_sort` (`std_mergesort.c`) with everything it evaluates as an `int` and every slot its
callbacks touch as events. The arithmetic is that of the integers: a run is that of the C code as
long as its `int` events are in the range of an `int`. The context is only handed on to the
callbacks and is left out.
-/

namespace OpxCommonUtils.Sort

/-- The array to sort and the work array. -/
inductive ArrayName
  | array
  | tmpArray
  deriving DecidableEq, Repr

/-- The slots of both arrays and of whatever lies around them. -/
abbrev Arrays (α : Type) := ArrayName → Int → α

inductive Event
  /-- An `int` expression has this value. -/
  | int (value : Int)
  /-- A callback reads a slot. -/
  | read (name : ArrayName) (index : Int)
  /-- A callback assigns a slot. -/
  | write (name : ArrayName) (index : Int)
  deriving DecidableEq, Repr

variable {α : Type}

/-- Evaluates an `int` expression. -/
def int (value : Int) : Traced Event Unit := Traced.emit [.int value]

/-- A call of `std_merge_sort_cmp`, always with two slots of the array (`std_mergesort.h:41-42`). -/
def cmpFunc (cmp : α → α → Int) (arrays : Arrays α) (indexA indexB : Int) : Traced Event Int := do
  Traced.emit [.read .array indexA, .read .array indexB]
  pure (cmp (arrays .array indexA) (arrays .array indexB))

/-- A call of `std_merge_sort_copyfn`, which assigns one slot (`std_mergesort.h:53-55`). -/
def copyFunc (arrays : Arrays α) (dstArray : ArrayName) (dstIndex : Int) (srcArray : ArrayName)
    (srcIndex : Int) : Traced Event (Arrays α) := do
  Traced.emit [.read srcArray srcIndex, .write dstArray dstIndex]
  pure (Function.update arrays dstArray
    (Function.update (arrays dstArray) dstIndex (arrays srcArray srcIndex)))

/-- The variables of `std_merge_sort_merge_arrays` that its first loop changes. -/
structure MergeState (α : Type) where
  arrays : Arrays α
  left : Int
  mid : Int
  currPos : Int

/-- The first loop of `std_merge_sort_merge_arrays` (`std_mergesort.c:84-98`). -/
def mergeLoop (cmp : α → α → Int) (leftEnd right : Int) (m : MergeState α) :
    Traced Event (MergeState α) :=
  if _h : m.left ≤ leftEnd ∧ m.mid ≤ right then do
    let result ← cmpFunc cmp m.arrays m.left m.mid
    if result ≤ 0 then
      let arrays ← copyFunc m.arrays .tmpArray m.currPos .array m.left
      int (m.left + 1)
      int (m.currPos + 1)
      mergeLoop cmp leftEnd right ⟨arrays, m.left + 1, m.mid, m.currPos + 1⟩
    else
      let arrays ← copyFunc m.arrays .tmpArray m.currPos .array m.mid
      int (m.mid + 1)
      int (m.currPos + 1)
      mergeLoop cmp leftEnd right ⟨arrays, m.left, m.mid + 1, m.currPos + 1⟩
  else pure m
termination_by (leftEnd + 1 - m.left).toNat + (right + 1 - m.mid).toNat

/-- The second and the third loop (`std_mergesort.c:100-112`), which copy what is left of one half,
from `pos` to `stop`. They deliver the arrays and `curr_pos`. -/
def copyRest (stop : Int) (arrays : Arrays α) (currPos pos : Int) :
    Traced Event (Arrays α × Int) :=
  if _h : pos ≤ stop then do
    let arrays ← copyFunc arrays .tmpArray currPos .array pos
    int (currPos + 1)
    int (pos + 1)
    copyRest stop arrays (currPos + 1) (pos + 1)
  else pure (arrays, currPos)
termination_by (stop + 1 - pos).toNat

/-- The last loop (`std_mergesort.c:114-119`), from the right. -/
def copyBack (numElements : Int) (arrays : Arrays α) (index right : Int) :
    Traced Event (Arrays α) :=
  if _h : index < numElements then do
    let arrays ← copyFunc arrays .array right .tmpArray right
    int (right - 1)
    int (index + 1)
    copyBack numElements arrays (index + 1) (right - 1)
  else pure arrays
termination_by (numElements - index).toNat

/-- Merges the slots from `left` to `mid - 1` with those from `mid` to `right`
(`std_mergesort.c:70-120`). -/
def stdMergeSortMergeArrays (cmp : α → α → Int) (arrays : Arrays α) (left mid right : Int) :
    Traced Event (Arrays α) := do
  let leftEnd := mid - 1
  int leftEnd
  let numElements := right - left + 1
  int (right - left)
  int numElements
  let m ← mergeLoop cmp leftEnd right ⟨arrays, left, mid, left⟩
  let lefts ← copyRest leftEnd m.arrays m.currPos m.left
  let rights ← copyRest right lefts.1 lefts.2 m.mid
  copyBack numElements rights.1 0 right

/-- Sorts the slots from `left` to `right` (`std_mergesort.c:162-181`); `fuel` bounds the depth of
the recursion. -/
def stdMergeSortDivideNSort (cmp : α → α → Int) :
    (fuel : Nat) → (arrays : Arrays α) → (left right : Int) → Traced Event (Arrays α)
  | 0, _, _, _ => Traced.lift (.error .diverges)
  | fuel + 1, arrays, left, right =>
    if left < right then do
      int (right + left)
      let mid := (right + left).tdiv 2
      int mid
      let arrays ← stdMergeSortDivideNSort cmp fuel arrays left mid
      int (mid + 1)
      let arrays ← stdMergeSortDivideNSort cmp fuel arrays (mid + 1) right
      int (mid + 1)
      stdMergeSortMergeArrays cmp arrays left (mid + 1) right
    else pure arrays

/-- `std_merge_sort` (`std_mergesort.c:215-221`). -/
def stdMergeSort (cmp : α → α → Int) (fuel : Nat) (arrays : Arrays α) (numElements : Int) :
    Traced Event (Arrays α) := do
  int (numElements - 1)
  stdMergeSortDivideNSort cmp fuel arrays 0 (numElements - 1)

end OpxCommonUtils.Sort
