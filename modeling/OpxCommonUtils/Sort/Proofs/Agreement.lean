import OpxCommonUtils.Dll.Proofs.Sorted
import OpxCommonUtils.RbTree.Proofs.Walk
import OpxCommonUtils.Sort.Proofs.MergeSort

/-!
# Three ways to sort

A red-black tree that is walked, a merge sort and a sorted list bring the same elements into the
same order, those that compare equal in the order in which they came.
-/

namespace OpxCommonUtils.Sort

open RbTree RbtreeTable Tree LinkTree

/-- Insertions one after the other, and whether all of them succeeded. -/
def insertAll : RbtreeTable → List (Malloc RbtreeNode × Ptr) → Exec (Bool × RbtreeTable)
  | rbtt, [] => .ok (true, rbtt)
  | rbtt, (A, data) :: rest => do
    let (ok, rbtt) ← rbtt.stdRbtreeInsert A data
    let (oks, rbtt) ← insertAll rbtt rest
    return (ok && oks, rbtt)

/-- Insertions of objects into a list. -/
def insertOps (objs : List (Ptr × Dll.StdDll × (Nat → Ptr))) : List (Dll.Op Ptr) :=
  objs.map fun o => .insert o.1 o.2.1 o.2.2

/-- A list whose objects are compared by the field at `offset`. -/
def initSorted (cmp : Ptr → Ptr → Int) (h : Dll.StdDllHead Ptr) (links : Heap Dll.StdDll)
    (offset len : Nat) : Dll.StdDllHead Ptr × Heap Dll.StdDll :=
  Dll.stdDllInitSort h links (fun a b _ => cmp a b) offset len

section
variable {cmp : Ptr → Ptr → Int}

theorem totalPreorderOn (h : TotalPreorder cmp) : TotalPreorderOn cmp fun _ => True :=
  ⟨fun _ _ => (h.swap _ _).symm, fun _ _ _ => h.trans _ _ _⟩

/-- An element goes between those that are not above it and those that are. -/
theorem insertBy_append {d : Ptr} {ys : List Ptr} (hcmp : TotalPreorder cmp) (xs : List Ptr)
    (hxs : ∀ x ∈ xs, cmp x d ≤ 0) (hys : ∀ y ∈ ys, cmp d y < 0) :
    insertBy cmp d (xs ++ ys) = xs ++ d :: ys := by
  induction xs with
  | nil =>
    cases ys with
    | nil => rfl
    | cons y ys =>
      rw [List.nil_append, insertBy, if_pos (hys y List.mem_cons_self), List.nil_append]
  | cons x xs ih =>
    have hx := hxs x List.mem_cons_self
    have hswap := hcmp.swap d x
    rw [List.cons_append, insertBy, if_neg (by omega),
      ih fun a ha => hxs a (List.mem_cons_of_mem _ ha), List.cons_append]

/-- Insertions return, with success when memory is there, and when all of them succeed the in-order
sequence is a stable sorting of what was inserted. -/
theorem insertAll_spec (hcmp : TotalPreorder cmp) (items : List (Malloc RbtreeNode × Ptr)) :
    ∀ {rbtt : RbtreeTable} {t : Tree RbVal} {before : List Ptr}, Sound rbtt t →
      rbtt.rbttCompare = cmp → (∀ i ∈ items, i.2 ≠ NULL) →
      StableSorting cmp (fun _ => True) before ((seq t).map Prod.snd) →
      Delivers (insertAll rbtt items) fun r =>
        ((∀ i ∈ items, i.1.Succeeds) → r.1 = true) ∧
          (r.1 = true → ∃ t', Sound r.2 t' ∧
            StableSorting cmp (fun _ => True) (before ++ items.map Prod.snd)
              ((seq t').map Prod.snd)) := by
  induction items with
  | nil =>
    intro rbtt t before hs _ _ hsorted
    exact delivers_ok.mpr ⟨fun _ => rfl, fun _ => ⟨t, hs, by simpa using hsorted⟩⟩
  | cons i items ih =>
    intro rbtt t before hs hc hne hsorted
    obtain ⟨A, d⟩ := i
    have hrest : ∀ j ∈ items, j.2 ≠ NULL := fun j hj => hne j (List.mem_cons_of_mem _ hj)
    obtain ⟨⟨ok, rbtt₁⟩, hins, hr⟩ := stdRbtreeInsert_spec hs (hc ▸ hcmp) A
      (hne _ List.mem_cons_self)
    rw [insertAll, hins, exec_bind_ok]
    rcases hr with ⟨hnone, heq⟩ | ⟨z, t', xs, ys, -, hok, hs', hseq, hseq', hxs, hys, hcompare⟩
    · -- without memory the table is as before
      obtain ⟨rfl, rfl⟩ := Prod.mk.inj heq
      obtain ⟨⟨oks, rbtt₂⟩, hrun, -⟩ := ih hs hc hrest hsorted
      dsimp only
      rw [hrun, exec_bind_ok]
      refine delivers_ok.mpr ⟨fun hall => ?_, fun htrue => ?_⟩
      · obtain ⟨p, hp⟩ := hall _ List.mem_cons_self rbtt₁.nodes
        rw [hnone] at hp
        cases hp
      · cases htrue
    have hsorted' : StableSorting cmp (fun _ => True) (before ++ [d]) ((seq t').map Prod.snd) := by
      have hstep := hsorted.insert (totalPreorderOn hcmp) (fun _ _ => trivial) (x := d) trivial
      rw [hseq, List.map_append, insertBy_append hcmp] at hstep
      · rwa [hseq', List.map_append, List.map_cons]
      · intro x hx
        obtain ⟨y, hy, rfl⟩ := List.mem_map.mp hx
        exact hc ▸ hxs y hy
      · intro x hx
        obtain ⟨y, hy, rfl⟩ := List.mem_map.mp hx
        exact hc ▸ hys y hy
    obtain ⟨⟨oks, rbtt₂⟩, hrun, hmemory, hfinal⟩ := ih hs' (hcompare.trans hc) hrest hsorted'
    obtain rfl : ok = true := hok
    dsimp only at hrun ⊢
    rw [hrun, exec_bind_ok]
    refine delivers_ok.mpr ⟨fun hall => hmemory fun j hj => hall j (List.mem_cons_of_mem _ hj),
      fun htrue => ?_⟩
    obtain ⟨t₂, hs₂, hstable⟩ := hfinal htrue
    exact ⟨t₂, hs₂, by simpa using hstable⟩

/-- What is in a list after insertions. -/
theorem currentEntries_insertOps (objs : List (Ptr × Dll.StdDll × (Nat → Ptr))) :
    ∀ entries : List (Dll.Entry Ptr), (insertOps objs).foldl Dll.Op.current entries =
      entries ++ objs.map fun o => (o.1, o.2.2) := by
  induction objs with
  | nil => exact fun entries => (List.append_nil _).symm
  | cons o objs ih =>
    intro entries
    rw [insertOps, List.map_cons, List.foldl_cons]
    exact (ih _).trans (by simp [Dll.Op.current])

/-- For any comparison that is a total preorder and any elements, a red-black tree into which they
were inserted calls back for them in the order in which a merge sort leaves them in its array and
in which a sorted list holds them: the only sorted one that keeps equal elements in order. -/
theorem sorts_agree (cmp : Ptr → Ptr → Int) (hcmp : TotalPreorder cmp)
    (items : List (Malloc RbtreeNode × Ptr)) (hitems : ∀ i ∈ items, i.2 ≠ NULL)
    (hlen : items.length ≤ 2 ^ 30 + 1) (arrays : Arrays Ptr)
    (harray : between (arrays .array) 0 (items.length - 1) = items.map Prod.snd) (fuel : Nat)
    (hfuel : items.length < fuel) (h : Dll.StdDllHead Ptr) (hends : h.head ≠ h.tail)
    (m : Dll.Memory Ptr) (objs : List (Ptr × Dll.StdDll × (Nat → Ptr))) (offset len : Nat)
    (hobjs : objs.map (fun o => o.2.2 offset) = items.map Prod.snd)
    (hallowed : Dll.AllAllowed (initSorted cmp h m.links offset len).1 [] (insertOps objs)) :
    ∃ l, StableSorting cmp (fun _ => True) (items.map Prod.snd) l ∧
      (∃ ok rbtt, insertAll (stdRbtreeCreate cmp) items = .ok (ok, rbtt) ∧
        ((∀ i ∈ items, i.1.Succeeds) → ok = true) ∧
        (ok = true →
          ∃ d, rbtt.stdRbtreeWalk NULL (some fun _ _ => 0) 0 .inorderwalk = .ok (d, l))) ∧
      (∃ arrays', (stdMergeSort cmp fuel arrays items.length).result = .ok arrays' ∧
        between (arrays' .array) 0 (items.length - 1) = l) ∧
      ∃ m' ps, Dll.runOps (initSorted cmp h m.links offset len).1 (insertOps objs)
          ⟨(initSorted cmp h m.links offset len).2, m.data⟩ = .ok m' ∧
        Dll.traverse (initSorted cmp h m.links offset len).1 m'.links = .ok ps ∧
        ps.map (fun p => m'.data p offset) = l := by
  have htotal := totalPreorderOn hcmp
  have hall : ∀ d ∈ items.map Prod.snd, (fun _ => True : Ptr → Prop) d := fun _ _ => trivial
  obtain ⟨arrays', hruns, hsorts⟩ := stdMergeSort_runs cmp (n := items.length) (by omega)
    (show (items.length : Int).toNat < fuel by omega) arrays
  have hmerged := hsorts.sorting (fun _ => True) htotal fun _ _ => trivial
  rw [harray] at hmerged
  refine ⟨_, hmerged, ?_, ⟨arrays', hruns.result, rfl⟩, ?_⟩
  · obtain ⟨⟨ok, rbtt⟩, hins, hmemory, hall'⟩ := insertAll_spec hcmp items .create rfl hitems .nil
    refine ⟨ok, rbtt, hins, hmemory, fun hok => ?_⟩
    obtain ⟨t, hs, htree⟩ := hall' hok
    rw [List.nil_append] at htree
    -- the walk comes to every element
    obtain ⟨d, hwalk⟩ := stdRbtreeWalk_all hs (fun _ _ => 0) noCount .inorderwalk
      (walkStart_null rbtt)
    refine ⟨d, hwalk.trans ?_⟩
    have hsize : (seq t).length = items.length := by
      simpa using htree.perm.length_eq
    have hshort : (seq t).length ≤ startCount 0 := by
      rw [hsize, startCount, if_pos rfl]
      omega
    rw [callsOf_zero, List.nil_append, List.take_of_length_le, hmerged.unique htotal hall htree]
    · rfl
    · rwa [List.length_map]
  · have hfields : ∀ op ∈ insertOps objs, op.FieldIn offset fun _ => True := by
      intro op hop
      cases op <;> trivial
    obtain ⟨m', hrun, entries, hl, hdata, harr⟩ :=
      Dll.runOps_holds (h := (initSorted cmp h m.links offset len).1) (s := fun _ => True)
        (fun c hc => by cases hc; exact htotal) (insertOps objs) (fun x hx => by cases hx)
        (Dll.stdDllInit_holds h hends m rfl rfl) hallowed hfields
    refine ⟨m', _, hrun, Dll.traverse_spec hl fun p hp => ?_, ?_⟩
    · obtain ⟨x, hx, rfl⟩ := List.mem_map.mp hp
      exact (hdata x hx).2
    have hsorted : StableSorting (fun x y : Dll.Entry Ptr => cmp (x.2 offset) (y.2 offset))
        (fun _ => True) (Dll.currentEntries (insertOps objs)) entries := harr
    rw [Dll.currentEntries, currentEntries_insertOps, List.nil_append] at hsorted
    have hkeys := hsorted.map (f := fun x => x.2 offset) (s := fun _ => True)
      fun d => ⟨(NULL, fun _ => d), rfl⟩
    rw [List.map_map, show ((fun x : Dll.Entry Ptr => x.2 offset) ∘ fun o => (o.1, o.2.2)) =
      fun o : Ptr × Dll.StdDll × (Nat → Ptr) => o.2.2 offset from rfl, hobjs] at hkeys
    rw [List.map_map, ← hkeys.unique htotal hall hmerged]
    refine List.map_congr_left fun x hx => ?_
    exact congrFun (hdata x hx).1 offset

end

/-- Three user nodes, two of them with the same key. -/
def sampleItems : List (Malloc RbtreeNode × Ptr) := [(.above, 31), (.above, 12), (.above, 35)]

def sampleObjects : List (Ptr × Dll.StdDll × (Nat → Ptr)) :=
  [(3, ⟨0, 0⟩, fun _ => 31), (4, ⟨0, 0⟩, fun _ => 12), (5, ⟨0, 0⟩, fun _ => 35)]

def sampleArrays : Arrays Ptr
  | .array, i => [31, 12, 35].getD i.toNat 0
  | .tmpArray, _ => 0

theorem sorts_agree_sample : ∃ rbtt d l,
    insertAll (stdRbtreeCreate compareKeys) sampleItems = .ok (true, rbtt) ∧
      StableSorting compareKeys (fun _ => True) [31, 12, 35] l ∧
      rbtt.stdRbtreeWalk NULL (some fun _ _ => 0) 0 .inorderwalk = .ok (d, l) := by
  obtain ⟨l, hsorted, ⟨ok, rbtt, hins, hmemory, hwalk⟩, -⟩ := sorts_agree compareKeys
    totalPreorder_compareKeys sampleItems (by decide +kernel) (by decide) sampleArrays
    (by decide +kernel) 4 (by decide) ⟨1, 2, 0, 0, none⟩ (by decide) ⟨Heap.empty, fun _ _ => 0⟩
    sampleObjects 0 0 rfl
    (by simp [Dll.AllAllowed, insertOps, sampleObjects, Dll.Op.Allowed, Dll.Op.current, initSorted,
      Dll.stdDllInitSort, Dll.stdDllInit])
  have hok : ok = true := hmemory (by simp [sampleItems, Malloc.succeeds_above])
  obtain ⟨d, hd⟩ := hwalk hok
  exact ⟨rbtt, d, l, hok ▸ hins, hsorted, hd⟩

end OpxCommonUtils.Sort
