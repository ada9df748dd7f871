import OpxCommonUtils.Radix.Proofs.Lookup
import OpxCommonUtils.Radix.Proofs.WalkReturn

/-!
# Lookups while removed heads are still in the tree

A head that a callback removes stays at its node, marked, until the walk has left the node. The
lookups by address stop at the nearest matching node, marked or not, and give up when it is
marked: none of them hands out a removed head, an exact lookup does not notice it at all, and the
longest match is missed exactly where a removed head is a longer one (`lookups_in_walk`).
-/

namespace OpxCommonUtils.Radix

open Tree Trie LinkTree RtTable

/-- The node `n` stores a head for the prefix `K`. -/
def StoredAt (rtt : RtTable) (K : List Bool) (n : RtNode) : Prop :=
  n.rtnRth ≠ NULL ∧ (∃ rn, rtt.nodes.get rn = some n) ∧
    ∃ a, (rtt.heads n.rtnRth).rdxRthAddr = some a ∧ K = firstBits (bitAt a) n.rtnBit

/-- The head is stored for `K` and has not been removed. -/
def Live (rtt : RtTable) (K : List Bool) (rth : Ptr) : Prop :=
  ∃ n, StoredAt rtt K n ∧ n.rtnRth = rth ∧ n.marked = false

/-- The head of `K` has been removed, and a walk is yet to take it out of the tree. -/
def Leaving (rtt : RtTable) (K : List Bool) : Prop := ∃ n, StoredAt rtt K n ∧ n.marked = true

/-- Nothing that has not been removed is stored for more than `k` and fewer than `m` bits of `q`. -/
def NoneLonger (rtt : RtTable) (q : Nat → Bool) (m k : Nat) : Prop :=
  ∀ p < m, k < p → ∀ rth, ¬ Live rtt (firstBits q p) rth

/-- The longest match of fewer than `m` bits of `q`, `NULL` where nothing matches. -/
def LongestLive (rtt : RtTable) (q : Nat → Bool) (m : Nat) (rth : Ptr) : Prop :=
  (∃ p < m, Live rtt (firstBits q p) rth ∧ NoneLonger rtt q m p) ∨
    rth = NULL ∧ ∀ p < m, ∀ rth, ¬ Live rtt (firstBits q p) rth

/-- A removed head lies between the query and its longest match. -/
def Shadowed (rtt : RtTable) (q : Nat → Bool) (m : Nat) : Prop :=
  ∃ k < m, Leaving rtt (firstBits q k) ∧ NoneLonger rtt q m k ∧
    ∃ p < k, ∃ rth, Live rtt (firstBits q p) rth

/-- The answer of a search for the longest match of fewer than `m` bits: no removed head, and the
longest match unless it is shadowed. -/
structure Answers (rtt : RtTable) (q : Nat → Bool) (m : Nat) (rth : Ptr) : Prop where
  live : rth = NULL ∨ ∃ p < m, Live rtt (firstBits q p) rth
  longest : LongestLive rtt q m rth ↔ ¬ Shadowed rtt q m

/-- What `std_radix_getbestandprev` answers, with `less` in `*lessbest`, and `std_radix_getnextbest`
with it: there is a second best head only where there is a best one. -/
structure PrevAnswers (rtt : RtTable) (addr : Addr) (n : Nat) (lessbest r less : Ptr) : Prop where
  both : stdRadixGetbestandprev rtt (some addr) n lessbest = .ok (r, less)
  best : stdRadixGetbest rtt (some addr) n = .ok r
  next : stdRadixGetnextbest rtt (some addr) n = .ok (if rtt.rttRoot = NULL then NULL else less)
  empty : rtt.rttRoot = NULL → less = lessbest
  missing : rtt.rttRoot ≠ NULL → r = NULL → less = NULL
  second : r ≠ NULL → ∃ p ≤ n, Live rtt (firstBits (bitAt (rtt.queryAddr addr)) p) r ∧
    Answers rtt (bitAt (rtt.queryAddr addr)) p less

/-- What the four lookups by address answer in a table that may hold removed heads. -/
structure LookupsAnswer (rtt : RtTable) (addr : Addr) (n : Nat) : Prop where
  exact : ∃ r, stdRadixGetexact rtt (some addr) n = .ok r ∧
    ∀ rth, Live rtt (firstBits (bitAt addr) n) rth ↔ r = rth ∧ rth ≠ NULL
  best : ∃ r, stdRadixGetbest rtt (some addr) n = .ok r ∧
    Answers rtt (bitAt (rtt.queryAddr addr)) (n + 1) r
  prev : ∀ lessbest, ∃ r less, PrevAnswers rtt addr n lessbest r less

variable {rtt : RtTable} {t : Tree RtVal} {q : Nat → Bool} {n m : Nat}

theorem Live.ne_null {K : List Bool} {rth : Ptr} (h : Live rtt K rth) : rth ≠ NULL := by
  obtain ⟨m, hm, rfl, -⟩ := h
  exact hm.1

/-- Where nothing matches the answer is `NULL`. -/
theorem Answers.none (h : ∀ p < m, ∀ rth, ¬ Live rtt (firstBits q p) rth) :
    Answers rtt q m NULL where
  live := .inl rfl
  longest := by
    refine iff_of_true (.inr ⟨rfl, h⟩) ?_
    rintro ⟨k, hk, -, -, p, hp, rth, hlive⟩
    exact h p (by omega) rth hlive

namespace Shape

/-- A node that stores a head is an entry of the tree. -/
theorem storedAt_entry (hs : Shape rtt t) {K : List Bool} {m : RtNode} (h : StoredAt rtt K m) :
    ∃ x, (K, x) ∈ entries (view rtt.heads) t ∧ x.2.rth = m.rtnRth ∧ x.2.marked = m.marked := by
  obtain ⟨h0, ⟨rn, hm⟩, a, ha, rfl⟩ := h
  obtain ⟨c, v, l, r, heq, rfl⟩ := hs.locate hm
  exact ⟨(rn, v), mem_entries.mpr ⟨Shape.mem_of_plug heq, key_view_of_addr h0 ha⟩, rfl, rfl⟩

theorem entry_storedAt (hs : Shape rtt t) {K : List Bool} {x : Ptr × RtVal}
    (hx : (K, x) ∈ entries (view rtt.heads) t) :
    x.1 ≠ NULL ∧ ∃ m, rtt.nodes.deref x.1 = .ok m ∧ StoredAt rtt K m ∧ m.rtnRth = x.2.rth ∧
      m.marked = x.2.marked := by
  obtain ⟨p, v⟩ := x
  obtain ⟨hmem, hkey⟩ := mem_entries.mp hx
  have h0 : v.rth ≠ NULL := by
    intro hnull
    rw [(key_view_eq_none (hs.linked _ hmem)).mpr hnull] at hkey
    cases hkey
  obtain ⟨a, ha⟩ := (hs.linked _ hmem).addr h0
  obtain ⟨c, l, r, hplug⟩ := exists_plug_of_mem_pre hmem
  have hget := hs.get_node hplug
  rw [key_view_of_addr h0 ha] at hkey
  refine ⟨hs.ptr_ne_null ?_, _, Heap.deref_ok hget, ⟨h0, ⟨p, hget⟩, a, ha, ?_⟩, rfl, rfl⟩
  · rw [← map_fst_pre]
    exact List.mem_map_of_mem (f := Prod.fst) hmem
  · exact (Option.some.inj hkey).symm

theorem live_iff (hs : Shape rtt t) (K : List Bool) (rth : Ptr) :
    Live rtt K rth ↔
      ∃ x, (K, x) ∈ entries (view rtt.heads) t ∧ x.2.rth = rth ∧ x.2.marked = false := by
  constructor
  · rintro ⟨m, hm, rfl, hmark⟩
    obtain ⟨x, hx, hrth, hmarked⟩ := hs.storedAt_entry hm
    exact ⟨x, hx, hrth, hmarked.trans hmark⟩
  · rintro ⟨x, hx, rfl, hmark⟩
    obtain ⟨-, m, -, hm, hrth, hmarked⟩ := hs.entry_storedAt hx
    exact ⟨m, hm, hrth, hmarked.trans hmark⟩

theorem leaving_iff (hs : Shape rtt t) (K : List Bool) :
    Leaving rtt K ↔ ∃ x, (K, x) ∈ entries (view rtt.heads) t ∧ x.2.marked = true := by
  constructor
  · rintro ⟨m, hm, hmark⟩
    obtain ⟨x, hx, -, hmarked⟩ := hs.storedAt_entry hm
    exact ⟨x, hx, hmarked.trans hmark⟩
  · rintro ⟨x, hx, hmark⟩
    obtain ⟨-, m, -, hm, -, hmarked⟩ := hs.entry_storedAt hx
    exact ⟨m, hm, hmarked.trans hmark⟩

/-- A prefix has one head. -/
theorem live_unique (hs : Shape rtt t) {K : List Bool} {x : Ptr × RtVal}
    (hx : (K, x) ∈ entries (view rtt.heads) t) (rth : Ptr) :
    Live rtt K rth ↔ x.2.rth = rth ∧ x.2.marked = false := by
  rw [hs.live_iff]
  constructor
  · rintro ⟨y, hy, hrth, hmark⟩
    obtain rfl := hs.wf.entry_unique hx hy
    exact ⟨hrth, hmark⟩
  · rintro ⟨hrth, hmark⟩
    exact ⟨x, hx, hrth, hmark⟩

/-- The head of an entry is handed out unless it is marked. -/
theorem liveHead_entry (hs : Shape rtt t) {K : List Bool} {x : Ptr × RtVal}
    (hx : (K, x) ∈ entries (view rtt.heads) t) :
    liveHead rtt x.1 = .ok (if x.2.marked then NULL else x.2.rth) := by
  obtain ⟨h0, m, hm, -, hrth, hmark⟩ := hs.entry_storedAt hx
  rw [liveHead, if_neg h0, hm, exec_bind_ok, hrth, hmark]
  rfl

/-- The nearest matching node of a part of a path is an entry of the tree. -/
theorem find_entry {addr : Addr} {c : List (Frame RtVal)} {s : Tree RtVal} {g : Frame RtVal}
    (heq : plug c s = t)
    (hfind : c.find? (matchesQuery rtt.heads (bitAt addr) n) = some g) : g.val.bit ≤ n ∧
      (firstBits (bitAt addr) g.val.bit, g.ptr, g.val) ∈ entries (view rtt.heads) t := by
  have hmatch := List.find?_some hfind
  simp only [matchesQuery, decide_eq_true_eq] at hmatch
  exact ⟨hmatch.1, heq ▸ mem_entries_of_frame (List.mem_of_find?_eq_some hfind) hmatch.2⟩

/-- An exact lookup finds the head of the prefix unless it is removed. -/
theorem getexact_live (hs : Shape rtt t) (hdebug : rtt.rttDebug = false) (addr : Addr) (n : Nat) :
    ∃ r, stdRadixGetexact rtt (some addr) n = .ok r ∧
      ∀ rth, Live rtt (firstBits (bitAt addr) n) rth ↔ r = rth ∧ rth ≠ NULL := by
  have hnone : (∀ x, (firstBits (bitAt addr) n, x) ∉ entries (view rtt.heads) t) →
      ∀ rth, Live rtt (firstBits (bitAt addr) n) rth ↔ NULL = rth ∧ rth ≠ NULL := by
    intro hno rth
    rw [hs.live_iff]
    constructor
    · rintro ⟨x, hx, -⟩
      exact absurd hx (hno x)
    · rintro ⟨rfl, h0⟩
      exact absurd rfl h0
  unfold stdRadixGetexact
  simp only [hdebug, Bool.false_and, Bool.false_eq_true, if_false]
  by_cases hnil : t = .nil
  · subst hnil
    rw [if_pos (hs.root_eq_null.mpr rfl)]
    exact ⟨NULL, rfl, hnone (by simp)⟩
  rw [if_neg (hs.root_eq_null.not.mpr hnil)]
  obtain ⟨f, c, near, hl, hdesc⟩ := hs.descend_spec (shorter n)
    (fun v => decide (v.bit < n)) hnil (fun _ _ _ _ => rfl) addr
  obtain ⟨m, hm, -, hbit, htbit, hflags, -, -, hrth⟩ := hs.deref_frame hl.plug_eq
  have hlinked := hs.linked_frame hl.plug_eq (List.mem_cons_self (a := f))
  have hmark : m.marked = f.val.marked := by rw [RtNode.marked, RtVal.marked, hflags]
  rw [hdesc, exec_bind_ok, hm, exec_bind_ok, hbit, hrth, htbit, hlinked.tbit]
  by_cases hhere : f.val.bit = n ∧ f.val.rth ≠ NULL
  · obtain ⟨rfl, h0⟩ := hhere
    obtain ⟨his, hhis⟩ := hlinked.addr h0
    have hkey := key_view_of_addr h0 hhis
    rw [if_neg (by simp [h0]), rdxAddr_ok h0 hhis, exec_bind_ok]
    by_cases hcmp : firstBits (bitAt addr) f.val.bit = firstBits (bitAt his) f.val.bit
    · have hx : (firstBits (bitAt addr) f.val.bit, f.ptr, f.val) ∈ entries (view rtt.heads) t :=
        hl.plug_eq ▸ mem_entries_of_frame List.mem_cons_self (hcmp ▸ hkey)
      rw [(rdxCompareAddress_eq_false addr his f.val.bit).mpr hcmp]
      refine ⟨if f.val.marked then NULL else f.val.rth, ?_, fun rth => ?_⟩
      · cases hfm : f.val.marked <;> simp [hmark, hfm]
      · rw [hs.live_unique hx]
        cases hfm : f.val.marked with
        | true => simp [eq_comm]
        | false =>
          constructor
          · rintro ⟨rfl, -⟩
            exact ⟨rfl, h0⟩
          · rintro ⟨rfl, -⟩
            exact ⟨rfl, rfl⟩
    · have hdiff : rdxCompareAddress addr his (rnbyte f.val.bit) (rnbit f.val.bit) = true := by
        rw [← Bool.not_eq_false, rdxCompareAddress_eq_false]
        exact hcmp
      rw [if_pos hdiff]
      refine ⟨NULL, rfl, hnone fun x hx => ?_⟩
      obtain ⟨-, hkey'⟩ := hl.exact hs.wf (fun _ => rfl) hx
      rw [hkey] at hkey'
      exact hcmp (Option.some_inj.mp hkey').symm
  · rw [if_pos (by simpa [or_iff_not_imp_left] using hhere)]
    refine ⟨NULL, rfl, hnone fun x hx => ?_⟩
    obtain ⟨rfl, hkey'⟩ := hl.exact hs.wf (fun _ => rfl) hx
    have hlen := (hs.wf.key_isPrefix hx).2
    rw [length_firstBits] at hlen
    refine hhere ⟨hlen.symm, fun h0 => ?_⟩
    simp [view, h0] at hkey'

/-- The head of the longest stored match, given out unless it is marked, answers the search. -/
theorem answers_entry (hs : Shape rtt t) {x : Ptr × RtVal} {k : Nat} (hk : k < m)
    (hx : (firstBits q k, x) ∈ entries (view rtt.heads) t)
    (hmax : ∀ p < m, k < p → ∀ y, (firstBits q p, y) ∉ entries (view rtt.heads) t) :
    Answers rtt q m (if x.2.marked then NULL else x.2.rth) := by
  have hlonger : NoneLonger rtt q m k := by
    intro p hp hkp rth hlive
    obtain ⟨y, hy, -⟩ := (hs.live_iff _ _).mp hlive
    exact hmax p hp hkp y hy
  cases hmark : x.2.marked with
  | false =>
    have hlive : Live rtt (firstBits q k) x.2.rth := (hs.live_unique hx _).mpr ⟨rfl, hmark⟩
    refine ⟨.inr ⟨k, hk, hlive⟩, iff_of_true (.inl ⟨k, hk, hlive, hlonger⟩) ?_⟩
    rintro ⟨j, hj, hleaving, hnone, -⟩
    obtain ⟨y, hy, hymark⟩ := (hs.leaving_iff _).mp hleaving
    rcases Nat.lt_trichotomy j k with hjk | rfl | hkj
    · exact hnone k hk hjk _ hlive
    · obtain rfl := hs.wf.entry_unique hx hy
      rw [hmark] at hymark
      cases hymark
    · exact hmax j hj hkj y hy
  | true =>
    have hnot : ∀ rth, ¬ Live rtt (firstBits q k) rth := by
      intro rth hlive
      rw [((hs.live_unique hx rth).mp hlive).2] at hmark
      cases hmark
    have hbelow : ∀ p < m, ∀ rth, Live rtt (firstBits q p) rth → p < k := by
      intro p hp rth hlive
      rcases Nat.lt_trichotomy p k with hpk | rfl | hkp
      · exact hpk
      · exact absurd hlive (hnot rth)
      · exact absurd hlive (hlonger p hp hkp rth)
    refine ⟨.inl rfl, ⟨?_, fun hnoshadow => .inr ⟨rfl, fun p hp rth hlive => ?_⟩⟩⟩
    · rintro (⟨p, -, hlive, -⟩ | ⟨-, hno⟩)
      · exact absurd rfl hlive.ne_null
      · rintro ⟨j, hj, -, -, p, hp, rth, hlive⟩
        exact hno p (by omega) rth hlive
    · exact hnoshadow ⟨k, hk, (hs.leaving_iff _).mpr ⟨x, hx, hmark⟩, hlonger, p,
        hbelow p hp rth hlive, rth, hlive⟩

/-- The walk back over a part of the path answers the search for fewer than `m` bits. -/
theorem liveHead_answers (hs : Shape rtt t) {addr : Addr} {f : Frame RtVal}
    {c as bs : List (Frame RtVal)} {near : Tree RtVal}
    (hl : Landing (view rtt.heads) (bitAt addr) (fun v => decide (v.bit < n)) t f c near)
    (hsplit : f :: c = as ++ bs) (hm : m ≤ n + 1) (has : ∀ x ∈ as, m ≤ x.val.bit)
    (hbs : ∀ x ∈ bs, matchesQuery rtt.heads (bitAt addr) n x = true → x.val.bit < m) :
    ∃ r, liveHead rtt
        ((bs.find? (matchesQuery rtt.heads (bitAt addr) n)).elim NULL Frame.ptr) = .ok r ∧
      Answers rtt (bitAt addr) m r := by
  have hfound := hs.find_below hl hsplit hm has hbs
  cases hfind : bs.find? (matchesQuery rtt.heads (bitAt addr) n) with
  | none =>
    rw [hfind] at hfound
    refine ⟨NULL, rfl, .none fun p hp rth hlive => ?_⟩
    obtain ⟨x, hx, -⟩ := (hs.live_iff _ _).mp hlive
    exact hfound p hp x hx
  | some g =>
    rw [hfind] at hfound
    obtain ⟨hlt, hx, hmax⟩ := hfound
    exact ⟨_, hs.liveHead_entry hx, hs.answers_entry hlt hx hmax⟩

/-- An empty table answers `NULL`. -/
theorem answers_nil (hs : Shape rtt .nil) : Answers rtt q m NULL := by
  refine .none fun p _ rth hlive => ?_
  obtain ⟨x, hx, -⟩ := (hs.live_iff _ _).mp hlive
  simp at hx

/-- The second search, from the node above the best match. -/
theorem prev_answers (hs : Shape rtt t) {addr : Addr} {f g : Frame RtVal} {c : List (Frame RtVal)}
    {near : Tree RtVal}
    (hl : Landing (view rtt.heads) (bitAt addr) (fun v => decide (v.bit < n)) t f c near)
    (hfind : (f :: c).find? (matchesQuery rtt.heads (bitAt addr) n) = some g) :
    ∃ node less, rtt.nodes.deref g.ptr = .ok node ∧ g.ptr ≠ NULL ∧
      node.marked = g.val.marked ∧ node.rtnRth = g.val.rth ∧
      (backtrack rtt addr n (rtt.nodes.bound + 1) node.rtnParent >>= liveHead rtt) = .ok less ∧
      Answers rtt (bitAt addr) g.val.bit less := by
  obtain ⟨hmatch, as, bs, hsplit, -⟩ := List.find?_eq_some_iff_append.mp hfind
  have hle := (find_entry hl.plug_eq hfind).1
  have hplug := hl.plug_eq
  rw [hsplit] at hplug
  have hplug' := hplug
  rw [plug_append] at hplug'
  obtain ⟨node, hnode, hpar, -, -, hflags, -, -, hrth⟩ := hs.deref_frame hplug'
  have hlen : bs.length < rtt.nodes.bound + 1 := by
    have hbound := hs.length_path hl.plug_eq
    rw [hsplit, List.length_append, List.length_cons] at hbound
    omega
  have hback := hs.backtrack_spec addr n (rtt.nodes.bound + 1) bs
    (join g.side g.ptr g.val (plug as near) g.sib) hplug' hlen
  -- the nodes of a path get shorter on the way up
  obtain ⟨k, hc, -⟩ := hl.split hs.wf
  have hsorted := hc.len_sorted
  rw [hsplit, List.pairwise_append, List.pairwise_cons] at hsorted
  obtain ⟨-, ⟨hbelow, -⟩, habove⟩ := hsorted
  have hsplit' : f :: c = (as ++ [g]) ++ bs := by simp [hsplit]
  obtain ⟨less, hless, hanswers⟩ := hs.liveHead_answers hl (m := g.val.bit) hsplit' (by omega) (by
      intro x hx
      rcases List.mem_append.mp hx with hx | hx
      · exact (habove x hx g (by simp)).le
      · rw [List.mem_singleton.mp hx]) (fun x hx _ => hbelow x hx)
  refine ⟨node, less, hnode, hs.frame_ne_null hl.plug_eq (by simp [hsplit]), ?_, hrth, ?_, hanswers⟩
  · rw [RtNode.marked, RtVal.marked, hflags]
  · rw [hpar, hback, exec_bind_ok, hless]

theorem lookupsAnswer (hs : Shape rtt t) (hdebug : rtt.rttDebug = false) (addr : Addr) (n : Nat) :
    LookupsAnswer rtt addr n := by
  have hempty : rtt.rttRoot = NULL → Answers rtt (bitAt (rtt.queryAddr addr)) (n + 1) NULL := by
    intro hroot
    obtain rfl := hs.root_eq_null.mp hroot
    exact hs.answers_nil
  by_cases hroot : rtt.rttRoot = NULL
  · have hbest : stdRadixGetbest rtt (some addr) n = .ok NULL := by
      simp [stdRadixGetbest, hdebug, hroot, pure, Except.pure]
    refine ⟨hs.getexact_live hdebug addr n, ⟨NULL, hbest, hempty hroot⟩, fun lessbest =>
      ⟨NULL, lessbest, ?_, hbest, ?_, fun _ => rfl, fun h => absurd hroot h,
        fun h => absurd rfl h⟩⟩
    · simp [stdRadixGetbestandprev, hdebug, hroot, pure, Except.pure]
    · simp [stdRadixGetnextbest, hdebug, hroot, pure, Except.pure]
  · obtain ⟨f, c, near, hl, hnode⟩ :=
      hs.bestNode_spec (hs.root_eq_null.not.mp hroot) (rtt.queryAddr addr) n
    obtain ⟨r, hhead, hanswers⟩ := hs.liveHead_answers hl (m := n + 1)
      (List.nil_append (f :: c)).symm le_rfl (by simp) (by
        intro x _ hmatch
        simp only [matchesQuery, decide_eq_true_eq] at hmatch
        omega)
    have hbest : stdRadixGetbest rtt (some addr) n = .ok r := by
      simp only [stdRadixGetbest, hdebug, Bool.false_and, Bool.false_eq_true, if_false,
        if_neg hroot, hnode, exec_bind_ok, hhead]
    refine ⟨hs.getexact_live hdebug addr n, ⟨r, hbest, hanswers⟩, fun lessbest => ?_⟩
    suffices h : ∃ r less, (stdRadixGetbestandprev rtt (some addr) n lessbest = .ok (r, less) ∧
        stdRadixGetbest rtt (some addr) n = .ok r ∧
        stdRadixGetnextbest rtt (some addr) n = .ok less) ∧ (r = NULL → less = NULL) ∧
        (r ≠ NULL → ∃ p ≤ n, Live rtt (firstBits (bitAt (rtt.queryAddr addr)) p) r ∧
          Answers rtt (bitAt (rtt.queryAddr addr)) p less) by
      obtain ⟨r, less, ⟨hboth, hbest, hnext⟩, hmissing, hsecond⟩ := h
      exact ⟨r, less, hboth, hbest, by rw [hnext, if_neg hroot], fun h => absurd h hroot,
        fun _ => hmissing, hsecond⟩
    simp only [stdRadixGetbestandprev, stdRadixGetnextbest, hdebug, Bool.false_and,
      Bool.false_eq_true, if_false, if_neg hroot, hnode, exec_bind_ok]
    cases hfind : (f :: c).find? (matchesQuery rtt.heads (bitAt (rtt.queryAddr addr)) n) with
    | none =>
      rw [hfind] at hhead
      obtain rfl : NULL = r := Except.ok.inj hhead
      exact ⟨NULL, NULL, ⟨rfl, hbest, rfl⟩, fun _ => rfl, fun h => absurd rfl h⟩
    | some g =>
      rw [hfind] at hhead
      obtain ⟨node, less, hderef, h0, hmark, hrth, hless, hprev⟩ := hs.prev_answers hl hfind
      obtain ⟨hle, hx⟩ := find_entry hl.plug_eq hfind
      have hr := hs.liveHead_entry hx
      rw [show liveHead rtt g.ptr = .ok r from hhead] at hr
      simp only [Option.elim_some, if_neg h0, hderef, exec_bind_ok, hmark]
      cases hm : g.val.marked with
      | true =>
        rw [hm] at hr
        obtain rfl : r = NULL := Except.ok.inj hr
        exact ⟨NULL, NULL, ⟨rfl, hbest, rfl⟩, fun _ => rfl, fun h => absurd rfl h⟩
      | false =>
        rw [hm] at hr
        obtain rfl : r = g.val.rth := Except.ok.inj hr
        cases hback : backtrack rtt (rtt.queryAddr addr) n (rtt.nodes.bound + 1)
            node.rtnParent with
        | error e =>
          rw [hback] at hless
          cases hless
        | ok p =>
          rw [hback, exec_bind_ok] at hless
          have hlive := (hs.live_unique hx _).mpr ⟨rfl, hm⟩
          refine ⟨g.val.rth, less, ⟨?_, hbest, ?_⟩, fun h => absurd h hlive.ne_null,
            fun _ => ⟨_, hle, hlive, hprev⟩⟩
          · rw [if_neg Bool.false_ne_true, exec_bind_ok, hless, exec_bind_ok, hrth]
            rfl
          · rw [if_neg Bool.false_ne_true, exec_bind_ok, hless]

end Shape

/-- In every state of every run, inside a callback as well as between the rounds of a walk, the
lookups by address hand out no removed head, the exact lookup finds whatever has not been removed,
and the longest match is found exactly where no removed head shadows it. -/
theorem lookups_in_walk {marker : Ptr → Bool} {rtt₀ : RtTable} (hnew : NewTable rtt₀)
    {s : TableState} (hreached : OpxCommonUtils.Reached TableState.step
      (fun s l => l.Allowed marker s) ⟨rtt₀, .outside⟩ s) (addr : Addr) (n : Nat) :
    LookupsAnswer s.rtt addr n := by
  obtain ⟨t, hwalk⟩ : ∃ t, WalkOk s t := by
    refine hreached.invariant (P := fun s => ∃ t, WalkOk s t) ⟨_, hnew.walkOk⟩ ?_
    rintro s₁ s₂ label ⟨t, hwalk⟩ hallow hstep
    exact hwalk.step hallow hstep
  exact hwalk.shape.lookupsAnswer hwalk.plain addr n

/-- The callback of a walk removes the head of 0/16; the head of 0/8 stays. -/
def sampleLeaves : List TableLabel :=
  [.insert .above true 10 (fun _ => 0) 8, .insert .above true 11 (fun _ => 0) 16,
    .versionwalk NULL true 0 0 9, .round, .callbackReturn 0, .round, .remove 11]

/-- There 0/16 is not found any more, 0/8 is, and a longer query finds nothing. -/
theorem lookups_in_walk_sample : ∃ s, runSteps TableState.step sampleLeaves sampleNew = some s ∧
    LookupsAnswer s.rtt (fun _ => 0) 32 ∧
    stdRadixGetexact s.rtt (some fun _ => 0) 16 = .ok NULL ∧
    stdRadixGetexact s.rtt (some fun _ => 0) 8 = .ok 10 ∧
    stdRadixGetbest s.rtt (some fun _ => 0) 32 = .ok NULL := by
  have hrun : (runSteps TableState.step sampleLeaves sampleNew).map (fun s =>
      ((stdRadixGetexact s.rtt (some fun _ => 0) 16).toOption,
        (stdRadixGetexact s.rtt (some fun _ => 0) 8).toOption,
        (stdRadixGetbest s.rtt (some fun _ => 0) 32).toOption)) =
      some (some NULL, some 10, some NULL) := by decide +kernel
  obtain ⟨s, hs, hend⟩ := Option.map_eq_some_iff.mp hrun
  obtain ⟨h16, hend⟩ := Prod.mk.inj hend
  obtain ⟨h8, h32⟩ := Prod.mk.inj hend
  have hreached := OpxCommonUtils.Reached.runSteps_of_allMeet
    (fun s l => TableLabel.Allowed (fun _ => false) s l) sampleLeaves .init (by decide +kernel) hs
  have hok : ∀ {x : Exec Ptr} {r : Ptr}, x.toOption = some r → x = .ok r := by
    intro x r hx
    cases x with
    | error e => cases hx
    | ok a => exact congrArg Except.ok (Option.some.inj hx)
  exact ⟨s, hs, lookups_in_walk (newTable_create 32 true fun _ => default) hreached _ _,
    hok h16, hok h8, hok h32⟩

end OpxCommonUtils.Radix
