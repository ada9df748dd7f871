import OpxCommonUtils.Dll.Proofs.Links

/-!
# Sorted insertion

The objects between the ends are always a stable sorting of the objects in the list in their order
of insertion.
-/

namespace OpxCommonUtils.Dll

variable {β : Type} {h : StdDllHead β} {links : Heap StdDll}

/-! ## Runs -/

/-- An object in the list, with what stands in its memory. -/
abbrev Entry (β : Type) := Ptr × (Nat → β)

/-- What a user does: an object is inserted, with what stands in its links and in its memory by
then, or removed. -/
inductive Op (β : Type) where
  | insert (p : Ptr) (garbage : StdDll) (object : Nat → β)
  | remove (p : Ptr)

/-- The memory of the objects. -/
structure Memory (β : Type) where
  links : Heap StdDll
  data : Ptr → Nat → β

namespace Op

def run (h : StdDllHead β) (m : Memory β) : Op β → Exec (Memory β)
  | .insert p garbage object => do
    let data := Function.update m.data p object
    let links ← stdDllInsert h data (m.links.set p garbage) p
    return ⟨links, data⟩
  | .remove p => do
    let links ← stdDllRemove m.links p
    return ⟨links, m.data⟩

/-- The objects in the list afterwards, in the order of their insertion. -/
def current (entries : List (Entry β)) : Op β → List (Entry β)
  | .insert p _ object => entries ++ [(p, object)]
  | .remove p => entries.filter (·.1 ≠ p)

/-- Objects are inserted that are not in the list, and removed that are. -/
def Allowed (h : StdDllHead β) (entries : List (Entry β)) : Op β → Prop
  | .insert p _ _ => p ≠ NULL ∧ p ≠ h.head ∧ p ≠ h.tail ∧ p ∉ entries.map Prod.fst
  | .remove p => p ∈ entries.map Prod.fst

/-- The field of an object that is inserted. -/
def FieldIn (offset : Nat) (s : β → Prop) : Op β → Prop
  | .insert _ _ object => s (object offset)
  | .remove _ => True

end Op

/-- One operation after the other. -/
def runOps (h : StdDllHead β) : List (Op β) → Memory β → Exec (Memory β)
  | [], m => .ok m
  | op :: ops, m => do
    let m ← op.run h m
    runOps h ops m

/-- The objects in the list after operations on an empty one, in the order of their insertion. -/
def currentEntries (ops : List (Op β)) : List (Entry β) := ops.foldl Op.current []

/-- Every operation is allowed when its turn comes. -/
def AllAllowed (h : StdDllHead β) : List (Entry β) → List (Op β) → Prop
  | _, [] => True
  | entries, op :: ops => op.Allowed h entries ∧ AllAllowed h (op.current entries) ops

/-- The order of the objects: by the field, or that of insertion. -/
def Arranged (h : StdDllHead β) (s : β → Prop) (entries l : List (Entry β)) : Prop :=
  match h.compare with
  | none => l = entries
  | some compare => StableSorting (fun x y => compare (x.2 h.offset) (y.2 h.offset) h.len)
      (fun x => s (x.2 h.offset)) entries l

/-- The list in memory holds the objects that are in it, in order. -/
def Holds (h : StdDllHead β) (s : β → Prop) (entries : List (Entry β)) (m : Memory β) : Prop :=
  ∃ l, HoldsList m.links (ends h (l.map Prod.fst)) ∧ (∀ x ∈ l, m.data x.1 = x.2 ∧ x.1 ≠ NULL) ∧
    Arranged h s entries l

variable {s : β → Prop} {entries : List (Entry β)} {l : List (Entry β)}

theorem Arranged.mem_iff (ha : Arranged h s entries l) {x : Entry β} : x ∈ l ↔ x ∈ entries := by
  unfold Arranged at ha
  cases hc : h.compare with
  | none =>
    rw [hc] at ha
    rw [ha]
  | some compare =>
    rw [hc] at ha
    exact ha.mem_iff

/-- The comparison function of the head, if there is one, is a total preorder. -/
def Lawful (h : StdDllHead β) (s : β → Prop) : Prop :=
  ∀ compare, h.compare = some compare → TotalPreorderOn (fun a b => compare a b h.len) s

/-- An operation ends and keeps the list in order. -/
theorem Op.run_holds {op : Op β} {m : Memory β} (hlaw : Lawful h s)
    (hfields : ∀ x ∈ entries, s (x.2 h.offset)) (hm : Holds h s entries m)
    (hop : op.Allowed h entries) (hfield : op.FieldIn h.offset s) :
    Delivers (op.run h m) (Holds h s (op.current entries)) := by
  obtain ⟨l, hl, hdata, harr⟩ := hm
  cases op with
  | insert p garbage object =>
    obtain ⟨hnull, hhead, htail, hout⟩ := hop
    have hpl : p ∉ l.map Prod.fst := by
      intro hp
      obtain ⟨x, hx, rfl⟩ := List.mem_map.mp hp
      exact hout (List.mem_map_of_mem (harr.mem_iff.mp hx))
    have hnot : p ∉ ends h (l.map Prod.fst) := by
      simp only [ends, List.mem_cons, List.mem_append, List.not_mem_nil, or_false, not_or]
      exact ⟨hhead, hpl, htail⟩
    -- Storing the object changes no link of the list and no field of another object.
    have hl' : HoldsList (m.links.set p garbage) (ends h (l.map Prod.fst)) := by
      have hkeep : ∀ y ∈ ends h (l.map Prod.fst),
          (m.links.set p garbage).get y = m.links.get y := by
        intro y hy
        refine Heap.get_set_ne _ _ ?_
        rintro rfl
        exact hnot hy
      exact hl.congr (fun y hy => by rw [nextOf, hkeep y hy]; rfl)
        fun y hy => by rw [backOf, hkeep y hy]; rfl
    have hdata' : ∀ x ∈ l, Function.update m.data p object x.1 = x.2 := by
      intro x hx
      rw [Function.update_of_ne ?_, (hdata x hx).1]
      intro hxp
      exact hpl (hxp ▸ List.mem_map_of_mem hx)
    obtain ⟨links', hrun, hput⟩ := stdDllInsert_put (Function.update m.data p object)
      (Heap.get_set_self m.links p garbage) hl' hnot
      (fun q hq => by
        obtain ⟨x, hx, rfl⟩ := List.mem_map.mp hq
        exact (hdata x hx).2)
    have hlinks' := hput.holds hl' hnot
    refine ⟨⟨links', Function.update m.data p object⟩, by rw [Op.run, hrun]; rfl, ?_⟩
    unfold placed at hlinks'
    unfold Holds Arranged
    unfold Arranged at harr
    cases hc : h.compare with
    | none =>
      rw [hc] at hlinks' harr
      dsimp only at hlinks' harr ⊢
      subst harr
      refine ⟨l ++ [(p, object)], by simpa using hlinks', ?_, rfl⟩
      intro x hx
      rcases List.mem_append.mp hx with hx | hx
      · exact ⟨hdata' x hx, (hdata x hx).2⟩
      · rw [List.mem_singleton.mp hx]
        exact ⟨Function.update_self .., hnull⟩
    | some compare =>
      rw [hc] at hlinks' harr
      dsimp only at hlinks' harr ⊢
      refine ⟨insertBy (fun x y => compare (x.2 h.offset) (y.2 h.offset) h.len) (p, object) l,
        ?_, ?_, ?_⟩
      · have hmap : insertBy (compareObjects h compare (Function.update m.data p object)) p
            (l.map Prod.fst) = (insertBy (fun x y : Entry β =>
              compare (x.2 h.offset) (y.2 h.offset) h.len) (p, object) l).map Prod.fst := by
          refine insertBy_map Prod.fst (x := (p, object)) fun y hy => ?_
          rw [compareObjects, hdata' y hy, Function.update_self]
        rwa [← hmap]
      · intro x hx
        rcases mem_insertBy.mp hx with rfl | hx
        · exact ⟨Function.update_self .., hnull⟩
        · exact ⟨hdata' x hx, (hdata x hx).2⟩
      · exact harr.insert ((hlaw compare hc).comap fun x : Entry β => x.2 h.offset) hfields hfield
  | remove p =>
    have hpl : p ∈ l.map Prod.fst := by
      obtain ⟨x, hx, rfl⟩ := List.mem_map.mp hop
      exact List.mem_map_of_mem (harr.mem_iff.mpr hx)
    obtain ⟨links', hrun, hlinks', -⟩ := stdDllRemove_spec hl hpl
    refine ⟨⟨links', m.data⟩, by rw [Op.run, hrun]; rfl, l.filter (·.1 ≠ p), ?_, ?_, ?_⟩
    · rw [List.filter_map] at hlinks'
      exact hlinks'
    · exact fun x hx => hdata x (List.mem_of_mem_filter hx)
    · unfold Arranged at harr ⊢
      cases hc : h.compare with
      | none =>
        rw [hc] at harr
        exact congrArg (List.filter (·.1 ≠ p)) harr
      | some compare =>
        rw [hc] at harr
        exact harr.filter _

/-- So do many. -/
theorem runOps_holds (hlaw : Lawful h s) (ops : List (Op β)) : ∀ {entries : List (Entry β)}
    {m : Memory β}, (∀ x ∈ entries, s (x.2 h.offset)) → Holds h s entries m →
    AllAllowed h entries ops → (∀ op ∈ ops, op.FieldIn h.offset s) →
    Delivers (runOps h ops m) (Holds h s (ops.foldl Op.current entries)) := by
  induction ops with
  | nil => exact fun _ hm _ _ => delivers_ok.mpr hm
  | cons op ops ih =>
    intro entries m hfields hm hallowed hnew
    have hop := hnew op List.mem_cons_self
    apply (Op.run_holds hlaw hfields hm hallowed.1 hop).bind
    intro m' hm'
    apply ih _ hm' hallowed.2 fun op' hop' => hnew op' (List.mem_cons_of_mem _ hop')
    intro x hx
    cases op with
    | insert p garbage object =>
      rcases List.mem_append.mp hx with hx | hx
      · exact hfields x hx
      · rw [List.mem_singleton.mp hx]
        exact hop
    | remove p => exact hfields x (List.mem_of_mem_filter hx)

theorem stdDllInit_holds (h : StdDllHead β) (hends : h.head ≠ h.tail) (m : Memory β)
    {h' : StdDllHead β} (hhead : h'.head = h.head) (htail : h'.tail = h.tail) :
    Holds h' s [] ⟨(stdDllInit h m.links).2, m.data⟩ := by
  refine ⟨[], ⟨?_, ?_⟩, by simp, ?_⟩
  · simp [ends, hhead, htail, hends]
  · refine List.isChain_pair.mpr ⟨?_, ?_⟩
    · simp [nextOf, stdDllInit, Heap.get_set, hhead, htail, hends]
    · simp [backOf, stdDllInit, hhead, htail]
  · unfold Arranged
    split
    · rfl
    · exact .nil

/-- Sorted insertion is stable sorted insertion: after any insertions and removals on a list with a
comparison function that is a total preorder on the fields, a forward traversal yields the objects
in the list, sorted, those that compare equal in the order of their insertion; on a list without
one, it yields them in the order of insertion. -/
theorem dll_traversal_ordered (h : StdDllHead β) (hends : h.head ≠ h.tail) (m : Memory β)
    (ops : List (Op β)) (hallowed : AllAllowed h [] ops) :
    (∀ (compare : β → β → Nat → Int) (offset len : Nat) (s : β → Prop),
      TotalPreorderOn (fun a b => compare a b len) s → (∀ op ∈ ops, op.FieldIn offset s) →
      ∃ m' l, runOps (stdDllInitSort h m.links compare offset len).1 ops
          ⟨(stdDllInitSort h m.links compare offset len).2, m.data⟩ = .ok m' ∧
        traverse (stdDllInitSort h m.links compare offset len).1 m'.links =
          .ok (l.map Prod.fst) ∧
        (∀ x ∈ l, m'.data x.1 = x.2) ∧
        StableSorting (fun x y => compare (x.2 offset) (y.2 offset) len)
          (fun x => s (x.2 offset)) (currentEntries ops) l) ∧
    ∃ m', runOps (stdDllInit h m.links).1 ops ⟨(stdDllInit h m.links).2, m.data⟩ = .ok m' ∧
      traverse (stdDllInit h m.links).1 m'.links = .ok ((currentEntries ops).map Prod.fst) ∧
      ∀ x ∈ currentEntries ops, m'.data x.1 = x.2 := by
  -- What is allowed depends on the ends only.
  have hallowed' : ∀ h' : StdDllHead β, h'.head = h.head → h'.tail = h.tail →
      ∀ (entries : List (Entry β)), AllAllowed h entries ops → AllAllowed h' entries ops := by
    intro h' hhead htail
    clear hallowed
    induction ops with
    | nil => exact fun _ _ => trivial
    | cons op ops ih =>
      rintro entries ⟨hop, hops⟩
      refine ⟨?_, ih _ hops⟩
      cases op with
      | insert p garbage object =>
        unfold Op.Allowed at hop ⊢
        rwa [hhead, htail]
      | remove p => exact hop
  constructor
  · intro compare offset len s hcompare hfields
    obtain ⟨m', hrun, l, hl, hdata, harr⟩ :=
      runOps_holds (h := (stdDllInitSort h m.links compare offset len).1) (s := s)
        (fun c hc => by cases hc; exact hcompare) ops (fun x hx => by cases hx)
        (stdDllInit_holds h hends m rfl rfl)
        (hallowed' (stdDllInitSort h m.links compare offset len).1 rfl rfl [] hallowed) hfields
    refine ⟨m', l, hrun, traverse_spec hl fun p hp => ?_, fun x hx => (hdata x hx).1, harr⟩
    obtain ⟨x, hx, rfl⟩ := List.mem_map.mp hp
    exact (hdata x hx).2
  · obtain ⟨m', hrun, l, hl, hdata, harr⟩ :=
      runOps_holds (h := (stdDllInit h m.links).1) (s := fun _ => True)
        (fun c hc => by cases hc) ops (fun x hx => by cases hx)
        (stdDllInit_holds h hends m rfl rfl)
        (hallowed' (stdDllInit h m.links).1 rfl rfl [] hallowed)
        (fun op _ => by cases op <;> trivial)
    obtain rfl : l = currentEntries ops := harr
    refine ⟨m', hrun, traverse_spec hl fun p hp => ?_, fun x hx => (hdata x hx).1⟩
    obtain ⟨x, hx, rfl⟩ := List.mem_map.mp hp
    exact (hdata x hx).2

/-- Two objects with the same field are inserted; the first one is removed and comes back with a
smaller one. -/
def sampleOps : List (Op Int) :=
  [.insert 3 ⟨0, 0⟩ fun _ => 5, .insert 4 ⟨7, 7⟩ fun _ => 5, .remove 3,
    .insert 3 ⟨0, 0⟩ fun _ => 1]

def sampleHead : StdDllHead Int := ⟨1, 2, 0, 0, none⟩

def sampleMemory : Memory Int := ⟨Heap.empty, fun _ _ => 0⟩

theorem dll_traversal_ordered_sample :
    ∃ m' l, runOps (stdDllInitSort sampleHead sampleMemory.links (fun a b _ => a - b) 16 4).1
        sampleOps ⟨(stdDllInitSort sampleHead sampleMemory.links (fun a b _ => a - b) 16 4).2,
          sampleMemory.data⟩ = .ok m' ∧
      traverse (stdDllInitSort sampleHead sampleMemory.links (fun a b _ => a - b) 16 4).1
        m'.links = .ok (l.map Prod.fst) ∧
      StableSorting (fun x y : Entry Int => x.2 16 - y.2 16) (fun _ => True)
        (currentEntries sampleOps) l := by
  have hallowed : AllAllowed sampleHead [] sampleOps := by
    simp [AllAllowed, sampleOps, Op.Allowed, Op.current, sampleHead]
  have hlaw : TotalPreorderOn (fun a b : Int => a - b) fun _ => True := by
    refine ⟨fun _ _ => ?_, fun _ _ _ hab hbc => ?_⟩ <;> omega
  obtain ⟨m', l, hrun, htraverse, -, hsorted⟩ :=
    (dll_traversal_ordered sampleHead (by decide) sampleMemory sampleOps hallowed).1
      (fun a b _ => a - b) 16 4 (fun _ => True) hlaw (fun op _ => by cases op <;> trivial)
  exact ⟨m', l, hrun, htraverse, hsorted⟩

end OpxCommonUtils.Dll
