import OpxCommonUtils.Dll.Proofs.Links

/-!
# The two chains of a list

In every run of the routines the links represent the sequence that the same operations give on
plain lists (`Represents`). An object that is not in the list has the links it had before the run, or
none.
-/

namespace OpxCommonUtils.Dll

variable {β : Type} {h : StdDllHead β} {links links' links₀ : Heap StdDll} {l : List Ptr}

/-! ## Sequences -/

/-- `x` is put behind `a`. -/
def insertAfter (a x : Ptr) : List Ptr → List Ptr
  | [] => []
  | y :: ys => if y = a then y :: x :: ys else y :: insertAfter a x ys

/-- `x` is put before `b`. -/
def insertBefore (b x : Ptr) : List Ptr → List Ptr
  | [] => []
  | y :: ys => if y = b then x :: y :: ys else y :: insertBefore b x ys

theorem insertAfter_append {a x : Ptr} {pre : List Ptr} (ha : a ∉ pre) (post : List Ptr) :
    insertAfter a x (pre ++ a :: post) = pre ++ a :: x :: post := by
  induction pre with
  | nil => rw [List.nil_append, insertAfter, if_pos rfl, List.nil_append]
  | cons y pre ih =>
    rw [List.mem_cons, not_or] at ha
    rw [List.cons_append, insertAfter, if_neg (Ne.symm ha.1), ih ha.2, List.cons_append]

theorem insertBefore_append {b x : Ptr} {pre : List Ptr} (hb : b ∉ pre) (post : List Ptr) :
    insertBefore b x (pre ++ b :: post) = pre ++ x :: b :: post := by
  induction pre with
  | nil => rw [List.nil_append, insertBefore, if_pos rfl, List.nil_append]
  | cons y pre ih =>
    rw [List.mem_cons, not_or] at hb
    rw [List.cons_append, insertBefore, if_neg (Ne.symm hb.1), ih hb.2, List.cons_append]

/-! ## Runs -/

/-- One call of a routine. `std_dll_insert` compares what stands in memory by then. -/
inductive Edit (β : Type) where
  | front (new : Ptr)
  | back (new : Ptr)
  | after (a new : Ptr)
  | before (b new : Ptr)
  | insert (new : Ptr) (data : Ptr → Nat → β)
  | remove (item : Ptr)

namespace Edit

def run (h : StdDllHead β) (links : Heap StdDll) : Edit β → Exec (Heap StdDll)
  | .front new => stdDllInsertatfront h links new
  | .back new => stdDllInsertatback h links new
  | .after a new => stdDllInsertafter links a new
  | .before b new => stdDllInsertbefore links b new
  | .insert new data => stdDllInsert h data links new
  | .remove item => stdDllRemove links item

/-- The same operation on a sequence. -/
def apply (h : StdDllHead β) (l : List Ptr) : Edit β → List Ptr
  | .front new => new :: l
  | .back new => l ++ [new]
  | .after a new => insertAfter a new l
  | .before b new => insertBefore b new l
  | .insert new data => placed h data new l
  | .remove item => l.filter (· ≠ item)

end Edit

/-- An object that can be put into the list: its links are in memory and are no end of the list. -/
structure IsObject (h : StdDllHead β) (links : Heap StdDll) (p : Ptr) : Prop where
  live : links.get p ≠ none
  ne_null : p ≠ NULL
  ne_head : p ≠ h.head
  ne_tail : p ≠ h.tail

/-- What is inserted is an object that is not in the list, next to one that is, and what is removed
is in the list. -/
def Edit.Allowed (h : StdDllHead β) (links : Heap StdDll) (l : List Ptr) : Edit β → Prop
  | .front new | .back new | .insert new _ => IsObject h links new ∧ new ∉ l
  | .after a new | .before a new => IsObject h links new ∧ new ∉ l ∧ a ∈ l
  | .remove item => item ∈ l

/-- One call after the other. -/
def runEdits (h : StdDllHead β) : List (Edit β) → Heap StdDll → Exec (Heap StdDll)
  | [], links => .ok links
  | e :: es, links => do
    let links ← e.run h links
    runEdits h es links

/-- Every call is allowed when its turn comes. -/
def EditsAllowed (h : StdDllHead β) (links : Heap StdDll) : List Ptr → List (Edit β) → Prop
  | _, [] => True
  | l, e :: es => e.Allowed h links l ∧ EditsAllowed h links (e.apply h l) es

/-- The list is initialised, with or without a comparison. -/
def initList (h : StdDllHead β) (links : Heap StdDll) :
    Option ((β → β → Nat → Int) × Nat × Nat) → StdDllHead β × Heap StdDll
  | none => stdDllInit h links
  | some (compare, offset, len) => stdDllInitSort h links compare offset len

/-! ## What the links say -/

/-- The `n` objects that `dll_next` leads to from `p`. -/
def forward (links : Heap StdDll) : (n : Nat) → Ptr → Exec (List Ptr)
  | 0, _ => .ok []
  | n + 1, p => do
    let c ← links.deref p
    let rest ← forward links n c.dllNext
    return c.dllNext :: rest

/-- The `n` objects that `dll_back` leads to from `p`. -/
def backward (links : Heap StdDll) : (n : Nat) → Ptr → Exec (List Ptr)
  | 0, _ => .ok []
  | n + 1, p => do
    let c ← links.deref p
    let rest ← backward links n c.dllBack
    return c.dllBack :: rest

/-- The links are those of the sequence `l`. An object that had no links in `links₀` is linked exactly
when it is in `l`. -/
structure Represents (h : StdDllHead β) (links₀ : Heap StdDll) (l : List Ptr)
    (links : Heap StdDll) : Prop where
  nodup : (ends h l).Nodup
  ne_null : ∀ p ∈ l, p ≠ NULL
  forward_eq : forward links (l.length + 1) h.head = .ok (l ++ [h.tail])
  backward_eq : backward links (l.length + 1) h.tail = .ok (l.reverse ++ [h.head])
  getfirst : stdDllGetfirst h links = .ok (l.head?.getD NULL)
  getlast : stdDllGetlast h links = .ok (l.getLast?.getD NULL)
  getnext : ∀ pre p post, l = pre ++ p :: post →
    stdDllGetnext h links p = .ok (post.head?.getD NULL)
  getprev : ∀ pre p post, l = pre ++ p :: post →
    stdDllGetprev h links p = .ok (pre.getLast?.getD NULL)
  islinked : ∀ p, IsObject h links₀ p → links₀.get p = some ⟨NULL, NULL⟩ ∨ p ∈ l →
    stdDllIslinked links p = .ok (decide (p ∈ l))

/-! ## The invariant -/

/-- The list between the ends is `l`; other objects have the links they had, or none. -/
structure Keeps (h : StdDllHead β) (links₀ : Heap StdDll) (l : List Ptr)
    (links : Heap StdDll) : Prop where
  holds : HoldsList links (ends h l)
  ne_null : ∀ p ∈ l, p ≠ NULL
  others : ∀ p, p ∉ ends h l → links.get p = links₀.get p ∨
    links₀.get p ≠ none ∧ links.get p = some ⟨NULL, NULL⟩
  live : ∀ p ∈ l, links₀.get p ≠ none

theorem ne_ends (hnd : (ends h l).Nodup) {p : Ptr} (hp : p ∈ l) : p ≠ h.head ∧ p ≠ h.tail := by
  obtain ⟨hhead, htail⟩ := List.nodup_cons.mp hnd
  constructor
  · rintro rfl
    exact hhead (List.mem_append_left _ hp)
  · exact (List.nodup_append.mp htail).2.2 p hp h.tail (List.mem_singleton.mpr rfl)

theorem mem_ends {p : Ptr} : p ∈ ends h l ↔ p = h.head ∨ p ∈ l ∨ p = h.tail := by
  simp [ends]

theorem Put.mem {new : Ptr} {L L' : List Ptr} (hput : Put links new L L' links') {p : Ptr} :
    p ∈ L' ↔ p = new ∨ p ∈ L := by
  obtain ⟨pre, a, b, post, rfl, rfl, -⟩ := hput
  simp only [List.mem_append, List.mem_cons]
  tauto

namespace Keeps

theorem live_of_not_mem (hk : Keeps h links₀ l links) {p : Ptr} (hp : p ∉ ends h l)
    (hlive : links₀.get p ≠ none) : ∃ c, links.get p = some c := by
  rcases hk.others p hp with heq | ⟨-, heq⟩
  · rw [heq]
    exact Option.ne_none_iff_exists'.mp hlive
  · exact ⟨_, heq⟩

theorem put {new : Ptr} {l' : List Ptr} (hk : Keeps h links₀ l links)
    (hnew : IsObject h links₀ new) (hnot : new ∉ ends h l)
    (hput : Put links new (ends h l) (ends h l') links') : Keeps h links₀ l' links' := by
  have hmem : ∀ p ∈ l', p = new ∨ p ∈ l := by
    intro p hp
    have hne := ne_ends (hput.holds hk.holds hnot).nodup hp
    rcases hput.mem.mp (show p ∈ ends h l' by simp [ends, hp]) with heq | hin
    · exact .inl heq
    · exact .inr (by simpa [ends, hne] using hin)
  refine ⟨hput.holds hk.holds hnot, fun p hp => ?_, fun p hp => ?_, fun p hp => ?_⟩
  · rcases hmem p hp with rfl | hin
    · exact hnew.ne_null
    · exact hk.ne_null p hin
  · have hout := not_or.mp (mt hput.mem.mpr hp)
    rw [hput.get_eq hout.2 hout.1]
    exact hk.others p hout.2
  · rcases hmem p hp with rfl | hin
    · exact hnew.live
    · exact hk.live p hin

theorem remove {item : Ptr} (hk : Keeps h links₀ l links) (hitem : item ∈ l) :
    Delivers (stdDllRemove links item) (Keeps h links₀ (l.filter (· ≠ item))) := by
  refine (stdDllRemove_spec hk.holds hitem).mono fun links' ⟨hl, hget, hrest⟩ =>
    ⟨hl, fun p hp => hk.ne_null p (List.mem_of_mem_filter hp), fun p hp => ?_,
      fun p hp => hk.live p (List.mem_of_mem_filter hp)⟩
  by_cases heq : p = item
  · rw [heq]
    exact .inr ⟨hk.live item hitem, hget⟩
  · have hout : p ∉ ends h l := by
      simp only [mem_ends, List.mem_filter, not_or] at hp ⊢
      simpa [heq] using hp
    rw [hrest p hout]
    exact hk.others p hout

/-- An allowed call ends and does what the operation on the sequence does. -/
theorem edit {e : Edit β} (hk : Keeps h links₀ l links) (he : e.Allowed h links₀ l) :
    Delivers (e.run h links) (Keeps h links₀ (e.apply h l)) := by
  have hfresh {new : Ptr} (hobj : IsObject h links₀ new) (hnot : new ∉ l) : new ∉ ends h l := by
    rw [mem_ends, not_or, not_or]
    exact ⟨hobj.ne_head, hnot, hobj.ne_tail⟩
  cases e with
  | front new =>
    obtain ⟨hobj, hnot⟩ := he
    have hout := hfresh hobj hnot
    obtain ⟨c, hc⟩ := hk.live_of_not_mem hout hobj.live
    exact (stdDllInsertatfront_put hc hk.holds hout).mono fun _ hput => hk.put hobj hout hput
  | back new =>
    obtain ⟨hobj, hnot⟩ := he
    have hout := hfresh hobj hnot
    obtain ⟨c, hc⟩ := hk.live_of_not_mem hout hobj.live
    exact (stdDllInsertatback_put hc hk.holds hout).mono fun _ hput => hk.put hobj hout hput
  | after a new =>
    obtain ⟨hobj, hnot, ha⟩ := he
    have hout := hfresh hobj hnot
    obtain ⟨c, hc⟩ := hk.live_of_not_mem hout hobj.live
    obtain ⟨pre, post, rfl, hpre⟩ := List.eq_append_cons_of_mem ha
    rw [Edit.apply, insertAfter_append hpre]
    exact (stdDllInsertafter_put hc hk.holds hout (hk.ne_null a ha)).mono
      fun _ hput => hk.put hobj hout hput
  | before b new =>
    obtain ⟨hobj, hnot, hb⟩ := he
    have hout := hfresh hobj hnot
    obtain ⟨c, hc⟩ := hk.live_of_not_mem hout hobj.live
    obtain ⟨pre, post, rfl, hpre⟩ := List.eq_append_cons_of_mem hb
    rw [Edit.apply, insertBefore_append hpre]
    exact (stdDllInsertbefore_put hc hk.holds hout (hk.ne_null b hb)).mono
      fun _ hput => hk.put hobj hout hput
  | insert new data =>
    obtain ⟨hobj, hnot⟩ := he
    have hout := hfresh hobj hnot
    obtain ⟨c, hc⟩ := hk.live_of_not_mem hout hobj.live
    exact (stdDllInsert_put data hc hk.holds hout hk.ne_null).mono
      fun _ hput => hk.put hobj hout hput
  | remove item => exact hk.remove he

theorem runEdits (es : List (Edit β)) : ∀ {l : List Ptr} {links : Heap StdDll},
    Keeps h links₀ l links → EditsAllowed h links₀ l es →
      Delivers (Dll.runEdits h es links) (Keeps h links₀ (es.foldl (Edit.apply h) l)) := by
  induction es with
  | nil => exact fun hk _ => delivers_ok.mpr hk
  | cons e es ih => exact fun hk he => (hk.edit he.1).bind fun _ hk' => ih hk' he.2

end Keeps

/-! ## What the invariant says -/

theorem forward_spec : ∀ (post pre : List Ptr) (a : Ptr), HoldsList links (pre ++ a :: post) →
    forward links post.length a = .ok post := by
  intro post
  induction post with
  | nil => intro pre a _; rfl
  | cons b post ih =>
    intro pre a hl
    obtain ⟨c, hc, rfl⟩ := nextOf_eq.mp hl.next_eq
    rw [List.length_cons, forward, Heap.deref_ok hc, exec_bind_ok,
      ih (pre ++ [a]) c.dllNext (by simpa using hl)]
    rfl

theorem backward_spec : ∀ (pre post : List Ptr) (a : Ptr),
    HoldsList links (pre.reverse ++ a :: post) → backward links pre.length a = .ok pre := by
  intro pre
  induction pre with
  | nil => intro post a _; rfl
  | cons b pre ih =>
    intro post a hl
    rw [List.reverse_cons, List.append_assoc, List.singleton_append] at hl
    obtain ⟨c, hc, rfl⟩ := backOf_eq.mp hl.adjacent.2
    rw [List.length_cons, backward, Heap.deref_ok hc, exec_bind_ok, ih (a :: post) c.dllBack hl]
    rfl

theorem stdDllGetnext_spec {pre post : List Ptr} {a : Ptr}
    (hl : HoldsList links (pre ++ a :: (post ++ [h.tail]))) :
    stdDllGetnext h links a = .ok (post.head?.getD NULL) := by
  cases post with
  | nil =>
    obtain ⟨c, hc, hnext⟩ := nextOf_eq.mp hl.next_eq
    rw [stdDllGetnext, Heap.deref_ok hc, exec_bind_ok, if_neg (not_not_intro hnext)]
    rfl
  | cons q qs =>
    obtain ⟨c, hc, rfl⟩ := nextOf_eq.mp hl.next_eq
    rw [stdDllGetnext, Heap.deref_ok hc, exec_bind_ok, if_pos (HoldsList.ne_tail hl)]
    rfl

theorem stdDllGetprev_spec {pre post : List Ptr} {a : Ptr}
    (hl : HoldsList links (h.head :: pre ++ a :: post)) :
    stdDllGetprev h links a = .ok (pre.getLast?.getD NULL) := by
  rcases pre.eq_nil_or_concat' with rfl | ⟨init, b, rfl⟩
  · have hl' : HoldsList links ([] ++ h.head :: a :: post) := hl
    obtain ⟨c, hc, hback⟩ := backOf_eq.mp hl'.adjacent.2
    rw [stdDllGetprev, Heap.deref_ok hc, exec_bind_ok, if_neg (not_not_intro hback)]
    rfl
  · have hl' : HoldsList links ((h.head :: init) ++ b :: a :: post) := by simpa using hl
    obtain ⟨c, hc, rfl⟩ := backOf_eq.mp hl'.adjacent.2
    have hhead : c.dllBack ≠ h.head := by
      intro heq
      exact (List.nodup_cons.mp hl'.nodup).1 (by simp [heq])
    rw [stdDllGetprev, Heap.deref_ok hc, exec_bind_ok, if_pos hhead, List.getLast?_concat]
    rfl

theorem islinked_of_mem {p : Ptr} (hl : HoldsList links (ends h l)) (hhead : h.head ≠ NULL)
    (htail : h.tail ≠ NULL) (hnull : ∀ p ∈ l, p ≠ NULL) (hp : p ∈ l) :
    stdDllIslinked links p = .ok true := by
  have hne : ∀ q ∈ ends h l, q ≠ NULL := by
    intro q hq
    rcases mem_ends.mp hq with rfl | hq | rfl
    · exact hhead
    · exact hnull q hq
    · exact htail
  obtain ⟨pre, post, rfl⟩ := List.append_of_mem hp
  obtain ⟨init, a, hinit⟩ : ∃ init a, h.head :: pre = init ++ [a] :=
    List.eq_nil_or_concat' _ |>.resolve_left (by simp)
  obtain ⟨b, rest, hrest⟩ : ∃ b rest, post ++ [h.tail] = b :: rest :=
    List.exists_cons_of_ne_nil (by simp)
  simp only [ends_append, List.cons_append, hinit, hrest, List.append_assoc, List.nil_append]
    at hl hne
  have hl' : HoldsList links ((init ++ [a]) ++ p :: b :: rest) := by simpa using hl
  obtain ⟨c, hc, hnext⟩ := nextOf_eq.mp hl'.next_eq
  obtain ⟨c', hc', hback⟩ := backOf_eq.mp hl.adjacent.2
  obtain rfl : c = c' := Option.some.inj (hc.symm.trans hc')
  have hb : c.dllNext ≠ NULL := hnext ▸ hne b (by simp)
  have ha : c.dllBack ≠ NULL := hback ▸ hne a (by simp)
  rw [stdDllIslinked, Heap.deref_ok hc, exec_bind_ok, decide_eq_true ⟨hb, ha⟩]
  rfl

theorem Keeps.represents (hk : Keeps h links₀ l links) (hhead : h.head ≠ NULL)
    (htail : h.tail ≠ NULL) : Represents h links₀ l links := by
  have hends : ends h l = [] ++ h.head :: (l ++ [h.tail]) := rfl
  refine ⟨hk.holds.nodup, hk.ne_null, ?_, ?_, ?_, ?_, fun pre p post hsplit => ?_,
    fun pre p post hsplit => ?_, fun p hobj hp => ?_⟩
  · have hforward := forward_spec _ _ _ (hends ▸ hk.holds)
    rwa [List.length_append, List.length_singleton] at hforward
  · have hback := backward_spec (l.reverse ++ [h.head]) [] h.tail
      (by simpa [ends] using hk.holds)
    rwa [List.length_append, List.length_singleton, List.length_reverse] at hback
  · exact stdDllGetnext_spec (hends ▸ hk.holds)
  · exact stdDllGetprev_spec hk.holds
  · subst hsplit
    have hl := hk.holds
    rw [ends_append, @List.cons_append _ p] at hl
    exact stdDllGetnext_spec hl
  · subst hsplit
    have hl := hk.holds
    rw [ends_append, @List.cons_append _ p] at hl
    exact stdDllGetprev_spec hl
  · by_cases hin : p ∈ l
    · rw [islinked_of_mem hk.holds hhead htail hk.ne_null hin, decide_eq_true hin]
    · have hout : p ∉ ends h l := by
        rw [mem_ends, not_or, not_or]
        exact ⟨hobj.ne_head, hin, hobj.ne_tail⟩
      have hget : links.get p = some ⟨NULL, NULL⟩ := by
        rcases hk.others p hout with heq | ⟨-, heq⟩
        · rw [heq]
          exact hp.resolve_right hin
        · exact heq
      rw [stdDllIslinked, Heap.deref_ok hget, exec_bind_ok, decide_eq_false hin]
      rfl

theorem initList_keeps (h : StdDllHead β) (links : Heap StdDll) (hends : h.head ≠ h.tail)
    (sort : Option ((β → β → Nat → Int) × Nat × Nat)) :
    Keeps (initList h links sort).1 links [] (initList h links sort).2 := by
  obtain ⟨hhead, htail, hlinks⟩ : (initList h links sort).1.head = h.head ∧
      (initList h links sort).1.tail = h.tail ∧
      (initList h links sort).2 = (stdDllInit h links).2 := by
    cases sort <;> exact ⟨rfl, rfl, rfl⟩
  rw [hlinks]
  refine ⟨⟨?_, ?_⟩, by simp, fun p hp => .inl ?_, by simp⟩
  · simp [ends, hhead, htail, hends]
  · refine List.isChain_pair.mpr ⟨?_, ?_⟩
    · simp [nextOf, stdDllInit, Heap.get_set, hhead, htail, hends]
    · simp [backOf, stdDllInit, hhead, htail]
  · rw [mem_ends, not_or, not_or, hhead, htail] at hp
    simp [stdDllInit, Heap.get_set, hp]

/-- Double linked lists represent sequences: after any allowed calls on a list that was initialised,
sorted or not, both chains, the four accessors and `std_dll_islinked` are those of the sequence that
the calls describe. -/
theorem dll_represents (h : StdDllHead β) (links : Heap StdDll) (hends : h.head ≠ h.tail)
    (hhead : h.head ≠ NULL) (htail : h.tail ≠ NULL)
    (sort : Option ((β → β → Nat → Int) × Nat × Nat)) (es : List (Edit β))
    (hes : EditsAllowed (initList h links sort).1 links [] es) :
    ∃ links', runEdits (initList h links sort).1 es (initList h links sort).2 = .ok links' ∧
      Represents (initList h links sort).1 links
        (es.foldl (Edit.apply (initList h links sort).1) []) links' := by
  obtain ⟨links', hrun, hk⟩ := (initList_keeps h links hends sort).runEdits es hes
  refine ⟨links', hrun, hk.represents ?_ ?_⟩
  · cases sort <;> exact hhead
  · cases sort <;> exact htail

/-- Two objects without links. -/
def twoObjects : Heap StdDll := (Heap.empty.set 3 ⟨0, 0⟩).set 4 ⟨0, 0⟩

/-- A list with its ends at 1 and 2. -/
def unsortedHead : StdDllHead Int := ⟨1, 2, 0, 0, none⟩

theorem dll_represents_sample : ∃ links',
    runEdits (initList unsortedHead twoObjects none).1 [.front 3, .before 3 4, .remove 3]
      (initList unsortedHead twoObjects none).2 = .ok links' ∧
      Represents (initList unsortedHead twoObjects none).1 twoObjects [4] links' :=
  dll_represents unsortedHead twoObjects (by decide) (by decide) (by decide) none
    [.front 3, .before 3 4, .remove 3]
    ⟨⟨⟨by decide, by decide, by decide, by decide⟩, by decide⟩,
      ⟨⟨by decide, by decide, by decide, by decide⟩, by decide, by decide⟩,
      by simp [Edit.Allowed, Edit.apply, insertBefore], trivial⟩

end OpxCommonUtils.Dll
