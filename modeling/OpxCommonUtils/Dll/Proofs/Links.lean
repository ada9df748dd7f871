import OpxCommonUtils.Dll.List
import OpxCommonUtils.Misc.DoublyLinked
import OpxCommonUtils.Misc.StableSort

/-!
# The routines of double linked lists

Every insertion puts its object between two neighbours, and a removal takes one out from between
two. Other objects keep their links.
-/

namespace OpxCommonUtils.Dll

variable {β : Type} {h : StdDllHead β} {links links' : Heap StdDll} {a b new : Ptr}

/-- What follows `p`. -/
def nextOf (links : Heap StdDll) (p : Ptr) : Option Ptr := (links.get p).map StdDll.dllNext

/-- What precedes `p`. -/
def backOf (links : Heap StdDll) (p : Ptr) : Option Ptr := (links.get p).map StdDll.dllBack

/-- The links of the cells of `l` go through `l` in both directions. -/
abbrev HoldsList (links : Heap StdDll) (l : List Ptr) : Prop :=
  Linked (nextOf links) (backOf links) l

theorem nextOf_eq {p q : Ptr} :
    nextOf links p = some q ↔ ∃ c, links.get p = some c ∧ c.dllNext = q := Option.map_eq_some_iff

theorem backOf_eq {p q : Ptr} :
    backOf links p = some q ↔ ∃ c, links.get p = some c ∧ c.dllBack = q := Option.map_eq_some_iff

/-- The cells of two neighbours. -/
theorem cells_of_adjacent (h : Adjacent (nextOf links) (backOf links) a b) :
    ∃ ca cb, links.get a = some ca ∧ ca.dllNext = b ∧ links.get b = some cb ∧ cb.dllBack = a := by
  obtain ⟨ca, hca, hnext⟩ := nextOf_eq.mp h.1
  obtain ⟨cb, hcb, hback⟩ := backOf_eq.mp h.2
  exact ⟨ca, cb, hca, hnext, hcb, hback⟩

/-! ## Putting an object between two neighbours -/

/-- `new` was put between `a` and `b`. -/
structure Spliced (links : Heap StdDll) (a new b : Ptr) (links' : Heap StdDll) : Prop where
  left : Adjacent (nextOf links') (backOf links') a new
  right : Adjacent (nextOf links') (backOf links') new b
  next : ∀ y, y ≠ a → y ≠ new → nextOf links' y = nextOf links y
  back : ∀ y, y ≠ b → y ≠ new → backOf links' y = backOf links y

theorem Spliced.holds {pre post : List Ptr} (hs : Spliced links a new b links')
    (hl : HoldsList links (pre ++ a :: b :: post)) (hnew : new ∉ pre ++ a :: b :: post) :
    HoldsList links' (pre ++ a :: new :: b :: post) :=
  hl.insert hnew hs.left hs.right hs.next hs.back

theorem Spliced.get_eq (hs : Spliced links a new b links') {y : Ptr} (ha : y ≠ a) (hb : y ≠ b)
    (hnew : y ≠ new) : links'.get y = links.get y := by
  have hnext := hs.next y ha hnew
  have hback := hs.back y hb hnew
  rw [nextOf, nextOf] at hnext
  rw [backOf, backOf] at hback
  cases hg : links.get y with
  | none => simpa [hg] using hnext
  | some c =>
    obtain ⟨c', hc', hn⟩ := Option.map_eq_some_iff.mp (hnext.trans (congrArg _ hg))
    rw [hc', hg] at hback
    obtain ⟨n, k⟩ := c
    obtain ⟨n', k'⟩ := c'
    simp only [Option.map_some, Option.some.injEq] at hback hn
    rw [hc', hback, hn]

/-- `new` was put between two neighbours in `l`, which gives `l'`. -/
def Put (links : Heap StdDll) (new : Ptr) (l l' : List Ptr) (links' : Heap StdDll) : Prop :=
  ∃ pre a b post, l = pre ++ a :: b :: post ∧ l' = pre ++ a :: new :: b :: post ∧
    Spliced links a new b links'

theorem Put.holds {l l' : List Ptr} (hput : Put links new l l' links') (hl : HoldsList links l)
    (hnew : new ∉ l) : HoldsList links' l' := by
  obtain ⟨pre, a, b, post, rfl, rfl, hs⟩ := hput
  exact hs.holds hl hnew

/-- The links of other objects stay. -/
theorem Put.get_eq {l l' : List Ptr} (hput : Put links new l l' links') {y : Ptr} (hy : y ∉ l)
    (hnew : y ≠ new) : links'.get y = links.get y := by
  obtain ⟨pre, a, b, post, rfl, -, hs⟩ := hput
  exact hs.get_eq (fun h => hy (by simp [h])) (fun h => hy (by simp [h])) hnew

theorem spliced_of_get {ca cb : StdDll} (hca : links.get a = some ca) (hcb : links.get b = some cb)
    (hab : a ≠ b) (ha : new ≠ a) (hb : new ≠ b)
    (hget : ∀ y, links'.get y =
      if y = a then some { ca with dllNext := new } else
      if y = b then some { cb with dllBack := new } else
      if y = new then some ⟨b, a⟩ else links.get y) :
    Spliced links a new b links' := by
  refine ⟨⟨?_, ?_⟩, ⟨?_, ?_⟩, fun y hya hyn => ?_, fun y hyb hyn => ?_⟩
  · simp [nextOf, hget]
  · simp [backOf, hget, ha, hb]
  · simp [nextOf, hget, ha, hb]
  · simp [backOf, hget, hab.symm]
  · by_cases hyb : y = b
    · simp [nextOf, hget, hyb, hcb, hab.symm]
    · simp [nextOf, hget, hya, hyn, hyb]
  · by_cases hya : y = a
    · simp [backOf, hget, hya, hca]
    · simp [backOf, hget, hya, hyn, hyb]

section Insert

variable {c : StdDll} (hnew : links.get new = some c)

include hnew

theorem stdDllInsertafter_spec (hab : Adjacent (nextOf links) (backOf links) a b) (hne : a ≠ b)
    (hnull : a ≠ NULL) (ha : new ≠ a) (hb : new ≠ b) :
    Delivers (stdDllInsertafter links a new) (Spliced links a new b) := by
  obtain ⟨ca, cb, hca, rfl, hcb, -⟩ := cells_of_adjacent hab
  refine ⟨((((links.set new { c with dllNext := ca.dllNext }).set new ⟨ca.dllNext, a⟩).set
    ca.dllNext { cb with dllBack := new }).set a { ca with dllNext := new }), ?_, ?_⟩
  · simp [stdDllInsertafter, setNext, setBack, Heap.deref, Heap.update, Heap.get_set, hca, hcb,
      hnew, hnull, ha.symm, hb.symm, hne]
  · apply spliced_of_get hca hcb hne ha hb
    intro y
    by_cases hya : y = a <;> by_cases hyb : y = ca.dllNext <;> by_cases hyn : y = new <;>
      simp [Heap.get_set, hya, hyb, hyn]

theorem stdDllInsertatfront_spec (hab : Adjacent (nextOf links) (backOf links) h.head b)
    (hne : h.head ≠ b) (ha : new ≠ h.head) (hb : new ≠ b) :
    Delivers (stdDllInsertatfront h links new) (Spliced links h.head new b) := by
  obtain ⟨ca, cb, hca, rfl, hcb, -⟩ := cells_of_adjacent hab
  refine ⟨((((links.set new { c with dllNext := ca.dllNext }).set new ⟨ca.dllNext, h.head⟩).set
    ca.dllNext { cb with dllBack := new }).set h.head { ca with dllNext := new }), ?_, ?_⟩
  · simp [stdDllInsertatfront, setNext, setBack, Heap.deref, Heap.update, Heap.get_set, hca, hcb,
      hnew, ha.symm, hb.symm, hne]
  · apply spliced_of_get hca hcb hne ha hb
    intro y
    by_cases hya : y = h.head <;> by_cases hyb : y = ca.dllNext <;> by_cases hyn : y = new <;>
      simp [Heap.get_set, hya, hyb, hyn]

theorem stdDllInsertatback_spec (hab : Adjacent (nextOf links) (backOf links) a h.tail)
    (hne : a ≠ h.tail) (ha : new ≠ a) (hb : new ≠ h.tail) :
    Delivers (stdDllInsertatback h links new) (Spliced links a new h.tail) := by
  obtain ⟨ca, cb, hca, -, hcb, rfl⟩ := cells_of_adjacent hab
  refine ⟨((((links.set new { c with dllNext := h.tail }).set new ⟨h.tail, cb.dllBack⟩).set
    cb.dllBack { ca with dllNext := new }).set h.tail { cb with dllBack := new }), ?_, ?_⟩
  · simp [stdDllInsertatback, setNext, setBack, Heap.deref, Heap.update, Heap.get_set, hca, hcb,
      hnew, ha.symm, hb.symm, hne.symm]
  · apply spliced_of_get hca hcb hne ha hb
    intro y
    by_cases hya : y = cb.dllBack <;> by_cases hyb : y = h.tail <;> by_cases hyn : y = new <;>
      simp [Heap.get_set, hya, hyb, hyn, hne, hne.symm, ha, hb]

theorem stdDllInsertbefore_spec (hab : Adjacent (nextOf links) (backOf links) a b) (hne : a ≠ b)
    (hnull : b ≠ NULL) (ha : new ≠ a) (hb : new ≠ b) :
    Delivers (stdDllInsertbefore links b new) (Spliced links a new b) := by
  obtain ⟨ca, cb, hca, -, hcb, rfl⟩ := cells_of_adjacent hab
  refine ⟨((((links.set new { c with dllNext := b }).set new ⟨b, cb.dllBack⟩).set
    cb.dllBack { ca with dllNext := new }).set b { cb with dllBack := new }), ?_, ?_⟩
  · simp [stdDllInsertbefore, setNext, setBack, Heap.deref, Heap.update, Heap.get_set, hca, hcb,
      hnew, hnull, ha.symm, hb.symm, hne.symm]
  · apply spliced_of_get hca hcb hne ha hb
    intro y
    by_cases hya : y = cb.dllBack <;> by_cases hyb : y = b <;> by_cases hyn : y = new <;>
      simp [Heap.get_set, hya, hyb, hyn, hne, hne.symm, ha, hb]

end Insert

/-! ## The routines on the whole list -/

/-- The objects `l` between the ends of the list. -/
def ends (h : StdDllHead β) (l : List Ptr) : List Ptr := h.head :: (l ++ [h.tail])

theorem ends_append (h : StdDllHead β) (pre post : List Ptr) :
    ends h (pre ++ post) = h.head :: pre ++ (post ++ [h.tail]) := by
  simp [ends]

/-- The comparison of two objects, by what the head says of the field. -/
def compareObjects (h : StdDllHead β) (compare : β → β → Nat → Int) (data : Ptr → Nat → β)
    (p q : Ptr) : Int := compare (data p h.offset) (data q h.offset) h.len

variable {data : Ptr → Nat → β} {l : List Ptr}

/-- The neighbours in a list are different. -/
theorem HoldsList.ne {pre post : List Ptr} (hl : HoldsList links (pre ++ a :: b :: post)) :
    a ≠ b := by
  rintro rfl
  have hnd := (List.nodup_append.mp hl.nodup).2.1
  exact (List.nodup_cons.mp hnd).1 List.mem_cons_self

/-- An object of a list is not its tail. -/
theorem HoldsList.ne_tail {pre post : List Ptr} {t : Ptr}
    (hl : HoldsList links (pre ++ a :: b :: (post ++ [t]))) : b ≠ t := by
  intro heq
  have hnd := (List.nodup_append.mp hl.nodup).2.1
  have hbehind := (List.nodup_cons.mp hnd).2
  exact (List.nodup_cons.mp hbehind).1 (by simp [heq])

/-- The walk puts the object before the first one behind `walk` that is above it. -/
theorem insertWalk_spec {compare : β → β → Nat → Int} {c : StdDll}
    (hnew : links.get new = some c) : ∀ (fuel : Nat) (pre post : List Ptr) (walk : Ptr),
    HoldsList links (pre ++ walk :: (post ++ [h.tail])) →
    new ∉ pre ++ walk :: (post ++ [h.tail]) → (∀ p ∈ walk :: post, p ≠ NULL) →
    post.length < fuel →
    Delivers (insertWalk h compare data links new fuel walk)
      (Put links new (pre ++ walk :: (post ++ [h.tail]))
        (pre ++ walk :: (insertBy (compareObjects h compare data) new post ++ [h.tail]))) := by
  intro fuel
  induction fuel with
  | zero => intro pre post walk _ _ _ hfuel; omega
  | succ fuel ih =>
    intro pre post walk hl hnot hnull hfuel
    have hw : new ≠ walk := by
      rintro rfl
      exact hnot (by simp)
    cases post with
    | nil =>
      obtain ⟨cw, hcw, hnext⟩ := nextOf_eq.mp hl.next_eq
      have ht : new ≠ h.tail := by
        rintro rfl
        exact hnot (by simp)
      rw [insertWalk, Heap.deref_ok hcw, exec_bind_ok, if_pos (.inl hnext)]
      exact (stdDllInsertafter_spec hnew hl.adjacent (HoldsList.ne hl) (hnull walk (by simp)) hw
        ht).mono fun links' hs => ⟨pre, walk, h.tail, [], rfl, rfl, hs⟩
    | cons q qs =>
      obtain ⟨cw, hcw, rfl⟩ := nextOf_eq.mp hl.next_eq
      have hq : new ≠ cw.dllNext := by
        rintro rfl
        exact hnot (by simp)
      have htail : cw.dllNext ≠ h.tail := HoldsList.ne_tail hl
      rw [insertWalk, Heap.deref_ok hcw, exec_bind_ok, insertBy]
      by_cases hlt : compareObjects h compare data new cw.dllNext < 0
      · rw [if_pos (.inr hlt), if_pos hlt]
        exact (stdDllInsertafter_spec hnew hl.adjacent (HoldsList.ne hl) (hnull walk (by simp)) hw
          hq).mono fun links' hs => ⟨pre, walk, cw.dllNext, qs ++ [h.tail], rfl, rfl, hs⟩
      · have hgoOn : ¬ (cw.dllNext = h.tail ∨
            compare (data new h.offset) (data cw.dllNext h.offset) h.len < 0) :=
          not_or.mpr ⟨htail, hlt⟩
        rw [if_neg hgoOn, if_neg hlt]
        have hrest := ih (pre ++ [walk]) qs cw.dllNext (by simpa using hl) (by simpa using hnot)
          (fun p hp => hnull p (List.mem_cons_of_mem _ hp)) (by simpa using hfuel)
        simpa using hrest

/-- Cells of a list are live. -/
theorem live_of_mem {p : Ptr} (hl : HoldsList links (ends h l)) (hp : p ∈ l) :
    ∃ c, links.get p = some c := by
  obtain ⟨pre, post, rfl⟩ := List.append_of_mem hp
  obtain ⟨q, rest, hrest⟩ : ∃ q rest, post ++ [h.tail] = q :: rest :=
    List.exists_cons_of_ne_nil (by simp)
  rw [ends_append, @List.cons_append _ p, hrest] at hl
  obtain ⟨c, hc, -⟩ := nextOf_eq.mp hl.next_eq
  exact ⟨c, hc⟩

theorem length_le_bound (hl : HoldsList links (ends h l)) : l.length ≤ links.bound := by
  have hnd : l.Nodup := by
    have := (List.nodup_cons.mp hl.nodup).2
    exact (List.nodup_append.mp this).1
  exact links.length_le_bound l hnd fun p hp => live_of_mem hl hp

/-- Where an object goes: behind all others in a list without a comparison function. -/
def placed (h : StdDllHead β) (data : Ptr → Nat → β) (new : Ptr) (l : List Ptr) : List Ptr :=
  match h.compare with
  | none => l ++ [new]
  | some compare => insertBy (compareObjects h compare data) new l

section Put

variable {c : StdDll} (hnew : links.get new = some c)

include hnew

theorem stdDllInsertatfront_put (hl : HoldsList links (ends h l)) (hnot : new ∉ ends h l) :
    Delivers (stdDllInsertatfront h links new) (Put links new (ends h l) (ends h (new :: l))) := by
  obtain ⟨b, post, hsplit⟩ : ∃ b post, l ++ [h.tail] = b :: post :=
    List.exists_cons_of_ne_nil (by simp)
  simp only [ends, List.cons_append, hsplit] at hl hnot ⊢
  have hl' : HoldsList links ([] ++ h.head :: b :: post) := hl
  simp only [List.mem_cons, not_or] at hnot
  exact (stdDllInsertatfront_spec hnew hl'.adjacent (HoldsList.ne hl') hnot.1 hnot.2.1).mono
    fun links' hs => ⟨[], h.head, b, post, rfl, rfl, hs⟩

theorem stdDllInsertatback_put (hl : HoldsList links (ends h l)) (hnot : new ∉ ends h l) :
    Delivers (stdDllInsertatback h links new) (Put links new (ends h l) (ends h (l ++ [new]))) := by
  -- The neighbours are the last object, or the head, and the tail.
  obtain ⟨pre, a, hsplit⟩ : ∃ pre a, h.head :: l = pre ++ [a] :=
    List.eq_nil_or_concat' _ |>.resolve_left (by simp)
  have hends : ∀ ps, ends h (l ++ ps) = pre ++ a :: (ps ++ [h.tail]) := by
    intro ps
    rw [ends_append, hsplit, List.append_assoc]
    rfl
  have hplain := hends []
  rw [List.append_nil, List.nil_append] at hplain
  rw [hplain] at hl hnot ⊢
  rw [hends]
  simp only [List.mem_append, List.mem_cons, not_or] at hnot
  exact (stdDllInsertatback_spec hnew hl.adjacent (HoldsList.ne hl) hnot.2.1 hnot.2.2.1).mono
    fun links' hs => ⟨pre, a, h.tail, [], rfl, rfl, hs⟩

theorem stdDllInsertafter_put {pre post : List Ptr} (hl : HoldsList links (ends h (pre ++ a :: post)))
    (hnot : new ∉ ends h (pre ++ a :: post)) (hnull : a ≠ NULL) :
    Delivers (stdDllInsertafter links a new)
      (Put links new (ends h (pre ++ a :: post)) (ends h (pre ++ a :: new :: post))) := by
  obtain ⟨b, rest, hsplit⟩ : ∃ b rest, post ++ [h.tail] = b :: rest :=
    List.exists_cons_of_ne_nil (by simp)
  simp only [ends_append, List.cons_append, hsplit] at hl hnot ⊢
  have hl' : HoldsList links ((h.head :: pre) ++ a :: b :: rest) := hl
  simp only [List.mem_append, List.mem_cons, not_or] at hnot
  exact (stdDllInsertafter_spec hnew hl'.adjacent (HoldsList.ne hl') hnull hnot.2.2.1
    hnot.2.2.2.1).mono fun links' hs => ⟨h.head :: pre, a, b, rest, rfl, rfl, hs⟩

theorem stdDllInsertbefore_put {pre post : List Ptr}
    (hl : HoldsList links (ends h (pre ++ b :: post))) (hnot : new ∉ ends h (pre ++ b :: post))
    (hnull : b ≠ NULL) :
    Delivers (stdDllInsertbefore links b new)
      (Put links new (ends h (pre ++ b :: post)) (ends h (pre ++ new :: b :: post))) := by
  obtain ⟨init, a, hsplit⟩ : ∃ init a, h.head :: pre = init ++ [a] :=
    List.eq_nil_or_concat' _ |>.resolve_left (by simp)
  simp only [ends_append, hsplit, List.append_assoc, List.nil_append, List.cons_append]
    at hl hnot ⊢
  simp only [List.mem_append, List.mem_cons, not_or] at hnot
  exact (stdDllInsertbefore_spec hnew hl.adjacent (HoldsList.ne hl) hnull hnot.2.1
    hnot.2.2.1).mono fun links' hs => ⟨init, a, b, _, rfl, rfl, hs⟩

variable (data) in
theorem stdDllInsert_put (hl : HoldsList links (ends h l)) (hnot : new ∉ ends h l)
    (hnull : ∀ p ∈ l, p ≠ NULL) :
    Delivers (stdDllInsert h data links new)
      (Put links new (ends h l) (ends h (placed h data new l))) := by
  unfold stdDllInsert placed
  cases h.compare with
  | none => exact stdDllInsertatback_put hnew hl hnot
  | some compare =>
    dsimp only
    have hfront := stdDllInsertatfront_put hnew hl hnot
    cases l with
    | nil =>
      have hl' : HoldsList links ([] ++ h.head :: h.tail :: []) := hl
      obtain ⟨ch, hch, hnext⟩ := nextOf_eq.mp hl'.next_eq
      rw [stdDllGetfirst, Heap.deref_ok hch]
      simp only [exec_bind_ok, hnext, ne_eq, not_true_eq_false, if_false, exec_pure, true_or,
        if_true]
      exact hfront
    | cons q qs =>
      have hl' : HoldsList links ([] ++ h.head :: q :: (qs ++ [h.tail])) := hl
      obtain ⟨ch, hch, rfl⟩ := nextOf_eq.mp hl'.next_eq
      have hqt : ch.dllNext ≠ h.tail := HoldsList.ne_tail hl'
      rw [stdDllGetfirst, Heap.deref_ok hch]
      simp only [exec_bind_ok, ne_eq, hqt, not_false_eq_true, if_true, exec_pure]
      rw [insertBy]
      by_cases hlt : compareObjects h compare data new ch.dllNext < 0
      · rw [if_pos (.inr hlt), if_pos hlt]
        exact hfront
      · have hgoOn : ¬ (ch.dllNext = NULL ∨
            compare (data new h.offset) (data ch.dllNext h.offset) h.len < 0) :=
          not_or.mpr ⟨hnull _ (by simp), hlt⟩
        rw [if_neg hgoOn, if_neg hlt]
        have hbound := length_le_bound hl
        exact insertWalk_spec hnew (links.bound + 1) [h.head] qs ch.dllNext hl hnot hnull
          (by simp at hbound; omega)

end Put

/-- An object has a neighbour on each side. -/
theorem neighbours {p : Ptr} (h : StdDllHead β) (hnd : l.Nodup) (hp : p ∈ l) :
    ∃ pre a b post, ends h l = pre ++ a :: p :: b :: post ∧
      ends h (l.filter (· ≠ p)) = pre ++ a :: b :: post := by
  obtain ⟨before, behind, rfl⟩ := List.append_of_mem hp
  obtain ⟨pre, a, hpre⟩ : ∃ pre a, h.head :: before = pre ++ [a] :=
    List.eq_nil_or_concat' _ |>.resolve_left (by simp)
  obtain ⟨b, post, hpost⟩ : ∃ b post, behind ++ [h.tail] = b :: post :=
    List.exists_cons_of_ne_nil (by simp)
  have hfilter : (before ++ p :: behind).filter (· ≠ p) = before ++ behind := by
    obtain ⟨-, hbehind, hdisj⟩ := List.nodup_append.mp hnd
    have hbefore : ∀ q ∈ before, q ≠ p := fun q hq => hdisj q hq p List.mem_cons_self
    have hnotin := (List.nodup_cons.mp hbehind).1
    have hbehind : ∀ q ∈ behind, q ≠ p := by
      rintro q hq rfl
      exact hnotin hq
    rw [List.filter_append, List.filter_cons_of_neg (by simp),
      List.filter_eq_self.mpr fun q hq => by simpa using hbefore q hq,
      List.filter_eq_self.mpr fun q hq => by simpa using hbehind q hq]
  refine ⟨pre, a, b, post, ?_, ?_⟩
  · rw [ends_append, @List.cons_append _ p, hpost, hpre]
    simp
  · rw [hfilter, ends_append, hpost, hpre]
    simp

theorem stdDllRemove_spec {p : Ptr} (hl : HoldsList links (ends h l)) (hp : p ∈ l) :
    Delivers (stdDllRemove links p) fun links' =>
      HoldsList links' (ends h (l.filter (· ≠ p))) ∧ links'.get p = some ⟨NULL, NULL⟩ ∧
        ∀ y, y ∉ ends h l → links'.get y = links.get y := by
  have hnd : l.Nodup := (List.nodup_append.mp (List.nodup_cons.mp hl.nodup).2).1
  obtain ⟨pre, a, b, post, hsplit, hrest⟩ := neighbours h hnd hp
  rw [hsplit] at hl
  rw [hrest]
  have hl' : HoldsList links ((pre ++ [a]) ++ p :: b :: post) := by simpa using hl
  obtain ⟨ca, cp, hca, -, hcp, hpa⟩ := cells_of_adjacent hl.adjacent
  obtain ⟨cp', cb, hcp', hpb, hcb, -⟩ := cells_of_adjacent hl'.adjacent
  obtain rfl : cp = cp' := Option.some.inj (hcp.symm.trans hcp')
  have hap := HoldsList.ne hl
  have hpb' := HoldsList.ne hl'
  have hab : a ≠ b := by
    rintro rfl
    have hnd := (List.nodup_append.mp hl.nodup).2.1
    exact (List.nodup_cons.mp hnd).1 (by simp)
  subst hpa hpb
  refine ⟨((((links.set cp.dllBack { ca with dllNext := cp.dllNext }).set cp.dllNext
    { cb with dllBack := cp.dllBack }).set p { cp with dllBack := NULL }).set p ⟨NULL, NULL⟩),
    ?_, ?_, by simp, fun y hy => ?_⟩
  · simp [stdDllRemove, setNext, setBack, Heap.deref, Heap.update, Heap.get_set, hca, hcb, hcp,
      hap.symm, hpb', hab.symm]
  · apply hl.remove
    · constructor
      · simp [nextOf, Heap.get_set, hap, hab]
      · simp [backOf, Heap.get_set, hpb'.symm]
    · intro y hya hyp
      by_cases hyb : y = cp.dllNext
      · simp [nextOf, Heap.get_set, hyb, hpb'.symm, hcb]
      · simp [nextOf, Heap.get_set, hya, hyp, hyb]
    · intro y hyb hyp
      by_cases hya : y = cp.dllBack
      · simp [backOf, Heap.get_set, hya, hap, hab, hca]
      · simp [backOf, Heap.get_set, hya, hyp, hyb]
  · rw [hsplit] at hy
    simp only [List.mem_append, List.mem_cons, not_or] at hy
    simp [Heap.get_set, hy]

/-- The traversal meets the objects between the ends. -/
theorem traverseFrom_spec : ∀ (fuel : Nat) (pre post : List Ptr) (a : Ptr),
    HoldsList links (pre ++ a :: (post ++ [h.tail])) → (∀ p ∈ post, p ≠ NULL) →
    post.length < fuel →
    (do let next ← stdDllGetnext h links a
        traverseFrom h links fuel next) = .ok post := by
  intro fuel
  induction fuel with
  | zero => intro pre post a _ _ hfuel; omega
  | succ fuel ih =>
    intro pre post a hl hnull hfuel
    cases post with
    | nil =>
      obtain ⟨ca, hca, hnext⟩ := nextOf_eq.mp hl.next_eq
      rw [stdDllGetnext, Heap.deref_ok hca, exec_bind_ok, if_neg (not_not_intro hnext)]
      rfl
    | cons q qs =>
      obtain ⟨ca, hca, rfl⟩ := nextOf_eq.mp hl.next_eq
      have htail : ca.dllNext ≠ h.tail := HoldsList.ne_tail hl
      rw [stdDllGetnext, Heap.deref_ok hca, exec_bind_ok, if_pos htail]
      change traverseFrom h links (fuel + 1) ca.dllNext = _
      have hrest := ih (pre ++ [a]) qs ca.dllNext (by simpa using hl)
        (fun p hp => hnull p (List.mem_cons_of_mem _ hp)) (by simpa using hfuel)
      rw [traverseFrom, if_neg (hnull _ List.mem_cons_self)]
      obtain ⟨next, hnext, hrest⟩ := exec_bind_eq_ok.mp hrest
      rw [hnext, exec_bind_ok, hrest]
      rfl

theorem traverse_spec (hl : HoldsList links (ends h l)) (hnull : ∀ p ∈ l, p ≠ NULL) :
    traverse h links = .ok l := by
  have hbound := length_le_bound hl
  exact traverseFrom_spec (links.bound + 1) [] l h.head hl hnull (by omega)

end OpxCommonUtils.Dll
