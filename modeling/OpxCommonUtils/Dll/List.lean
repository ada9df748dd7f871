import OpxCommonUtils.Misc.Heap

/-!
# Double linked lists (`src/std_llist.c`)

The links stand in objects of the user and in the two ends of the list, which are parts of its head.
What a comparison function reads of an object, `data p offset`, is not touched by the routines.
`DLL_VALIDATE` is empty, so the magic number is left out.
-/

namespace OpxCommonUtils.Dll

/-- `std_dll` (`std_llist.h:49-52`). -/
structure StdDll where
  dllNext : Ptr
  dllBack : Ptr
  deriving DecidableEq, Repr

/-- `std_dll_head` (`std_llist.h:68-79`), with the addresses of the ends instead of the ends. -/
structure StdDllHead (β : Type) where
  head : Ptr
  tail : Ptr
  offset : Nat
  len : Nat
  /-- `std_compare_function`: the two fields and their length. -/
  compare : Option (β → β → Nat → Int)

variable {β : Type}

/-- `std_dll_init` (`std_llist.c:48-63`). -/
def stdDllInit (h : StdDllHead β) (links : Heap StdDll) : StdDllHead β × Heap StdDll :=
  ({ h with compare := none, len := 0, offset := 0 },
    (links.set h.head ⟨h.tail, NULL⟩).set h.tail ⟨NULL, h.head⟩)

/-- `std_dll_init_sort` (`std_llist.c:65-70`). -/
def stdDllInitSort (h : StdDllHead β) (links : Heap StdDll) (compare : β → β → Nat → Int)
    (offset len : Nat) : StdDllHead β × Heap StdDll :=
  let r := stdDllInit h links
  ({ r.1 with compare := some compare, offset := offset, len := len }, r.2)

/-- `std_dll_getfirst` (`std_llist.c:72-81`). -/
def stdDllGetfirst (h : StdDllHead β) (links : Heap StdDll) : Exec Ptr := do
  let head ← links.deref h.head
  if head.dllNext ≠ h.tail then return head.dllNext else return NULL

/-- `std_dll_getlast` (`std_llist.c:84-93`). -/
def stdDllGetlast (h : StdDllHead β) (links : Heap StdDll) : Exec Ptr := do
  let tail ← links.deref h.tail
  if tail.dllBack ≠ h.head then return tail.dllBack else return NULL

/-- `std_dll_getnext` (`std_llist.c:96-105`). -/
def stdDllGetnext (h : StdDllHead β) (links : Heap StdDll) (after : Ptr) : Exec Ptr := do
  let c ← links.deref after
  if c.dllNext ≠ h.tail then return c.dllNext else return NULL

/-- `std_dll_getprev` (`std_llist.c:108-117`). -/
def stdDllGetprev (h : StdDllHead β) (links : Heap StdDll) (before : Ptr) : Exec Ptr := do
  let c ← links.deref before
  if c.dllBack ≠ h.head then return c.dllBack else return NULL

/-- `std_dll_islinked` (`std_llist.h:82`). -/
def stdDllIslinked (links : Heap StdDll) (item : Ptr) : Exec Bool := do
  let c ← links.deref item
  return c.dllNext ≠ NULL ∧ c.dllBack ≠ NULL

def setNext (links : Heap StdDll) (p next : Ptr) : Exec (Heap StdDll) :=
  links.update p fun c => { c with dllNext := next }

def setBack (links : Heap StdDll) (p back : Ptr) : Exec (Heap StdDll) :=
  links.update p fun c => { c with dllBack := back }

/-- `std_dll_insertatfront` (`std_llist.c:159-169`). -/
def stdDllInsertatfront (h : StdDllHead β) (links : Heap StdDll) (new : Ptr) :
    Exec (Heap StdDll) := do
  let head ← links.deref h.head
  let links ← setNext links new head.dllNext
  let links ← setBack links new h.head
  let head ← links.deref h.head
  let links ← setBack links head.dllNext new
  setNext links h.head new

/-- `std_dll_insertatback` (`std_llist.c:172-182`). -/
def stdDllInsertatback (h : StdDllHead β) (links : Heap StdDll) (new : Ptr) :
    Exec (Heap StdDll) := do
  let links ← setNext links new h.tail
  let tail ← links.deref h.tail
  let links ← setBack links new tail.dllBack
  let tail ← links.deref h.tail
  let links ← setNext links tail.dllBack new
  setBack links h.tail new

/-- `std_dll_insertafter` (`std_llist.c:185-196`). -/
def stdDllInsertafter (links : Heap StdDll) (after new : Ptr) : Exec (Heap StdDll) := do
  assertThat (after ≠ NULL)
  let a ← links.deref after
  let links ← setNext links new a.dllNext
  let links ← setBack links new after
  let a ← links.deref after
  let links ← setBack links a.dllNext new
  setNext links after new

/-- `std_dll_insertbefore` (`std_llist.c:199-210`). -/
def stdDllInsertbefore (links : Heap StdDll) (before new : Ptr) : Exec (Heap StdDll) := do
  assertThat (before ≠ NULL)
  let links ← setNext links new before
  let b ← links.deref before
  let links ← setBack links new b.dllBack
  let b ← links.deref before
  let links ← setNext links b.dllBack new
  setBack links before new

/-- The walk of `std_dll_insert` (`std_llist.c:148-155`). -/
def insertWalk (h : StdDllHead β) (compare : β → β → Nat → Int) (data : Ptr → Nat → β)
    (links : Heap StdDll) (new : Ptr) : (fuel : Nat) → (walk : Ptr) → Exec (Heap StdDll)
  | 0, _ => .error .diverges
  | fuel + 1, walk => do
    let c ← links.deref walk
    if c.dllNext = h.tail ∨
        compare (data new h.offset) (data c.dllNext h.offset) h.len < 0 then
      stdDllInsertafter links walk new
    else insertWalk h compare data links new fuel c.dllNext

/-- `std_dll_insert` (`std_llist.c:138-156`). -/
def stdDllInsert (h : StdDllHead β) (data : Ptr → Nat → β) (links : Heap StdDll) (new : Ptr) :
    Exec (Heap StdDll) :=
  match h.compare with
  | none => stdDllInsertatback h links new
  | some compare => do
    let first ← stdDllGetfirst h links
    let head ← links.deref h.head
    if first = NULL ∨
        compare (data new h.offset) (data head.dllNext h.offset) h.len < 0 then
      stdDllInsertatfront h links new
    else insertWalk h compare data links new (links.bound + 1) head.dllNext

/-- `std_dll_remove` (`std_llist.c:213-227`). -/
def stdDllRemove (links : Heap StdDll) (item : Ptr) : Exec (Heap StdDll) := do
  let c ← links.deref item
  let front := c.dllBack
  let back := c.dllNext
  let links ← setNext links front back
  let links ← setBack links back front
  let links ← setBack links item NULL
  setNext links item NULL

/-- What a user meets who goes on from `p` with `std_dll_getnext` until it returns `NULL`. -/
def traverseFrom (h : StdDllHead β) (links : Heap StdDll) : (fuel : Nat) → Ptr → Exec (List Ptr)
  | 0, _ => .error .diverges
  | fuel + 1, p =>
    if p = NULL then .ok []
    else do
      let next ← stdDllGetnext h links p
      let rest ← traverseFrom h links fuel next
      return p :: rest

/-- A forward traversal, from `std_dll_getfirst` on. -/
def traverse (h : StdDllHead β) (links : Heap StdDll) : Exec (List Ptr) := do
  let first ← stdDllGetfirst h links
  traverseFrom h links (links.bound + 1) first

end OpxCommonUtils.Dll
