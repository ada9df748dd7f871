import OpxCommonUtils.Radix.Proofs.Lookup
import Mathlib.Data.List.Find

/-!
# The next longest match

`std_radix_getbestandprev`, `std_radix_getnextbest`, `std_radix_getlessspecific` and
`std_radix_getparent` find the second best match, the first two by comparing addresses, the others
as the nearest head above the best match. In a trie both are the same, since every head above a
match matches too.
-/

namespace OpxCommonUtils.Radix

open Tree Trie LinkTree

/-- The table stores the head `r` for the prefix `K`. -/
def Stored (rtt : RtTable) (t : Tree RtVal) (K : List Bool) (r : Ptr) : Prop :=
  ∃ x, (K, x) ∈ entries (view rtt.heads) t ∧ x.2.rth = r

/-- `r` is the head stored for the longest prefix of `q` of fewer than `m` bits, `NULL` if there is
none. -/
def LongestBelow (rtt : RtTable) (t : Tree RtVal) (q : Nat → Bool) (m : Nat) (r : Ptr) : Prop :=
  (∃ p < m, Stored rtt t (firstBits q p) r ∧
    ∀ p' < m, p < p' → ∀ r', ¬ Stored rtt t (firstBits q p') r') ∨
  r = NULL ∧ ∀ p < m, ∀ r', ¬ Stored rtt t (firstBits q p) r'

theorem Stored.ne_null {rtt : RtTable} {t : Tree RtVal} {K : List Bool} {r : Ptr}
    (h : Stored rtt t K r) : r ≠ NULL := by
  obtain ⟨x, hx, rfl⟩ := h
  intro h0
  simpa [view, h0] using (mem_entries.mp hx).2

/-- No node of the tree is marked. -/
def Unmarked (t : Tree RtVal) : Prop :=
  ∀ x ∈ t.pre, rdxTestBit x.2.flags RDX_RN_DELE_BIT = false

namespace Shape

variable {rtt : RtTable} {t : Tree RtVal} {addr : Addr} {n m : Nat} {f g : Frame RtVal}
  {c as bs : List (Frame RtVal)} {near : Tree RtVal}

/-- The head a search on a part of a path finds. -/
def found (rtt : RtTable) (addr : Addr) (n : Nat) (bs : List (Frame RtVal)) : Ptr :=
  (bs.find? (matchesQuery rtt.heads (bitAt addr) n)).elim NULL fun g => g.val.rth

/-- The search on a part of the path of a query finds the longest match. -/
theorem longestBelow (hs : Shape rtt t)
    (hl : Landing (view rtt.heads) (bitAt addr) (fun v => decide (v.bit < n)) t f c near)
    (hsplit : f :: c = as ++ bs) (hm : m ≤ n + 1) (has : ∀ x ∈ as, m ≤ x.val.bit)
    (hbs : ∀ x ∈ bs, matchesQuery rtt.heads (bitAt addr) n x = true → x.val.bit < m) :
    LongestBelow rtt t (bitAt addr) m (found rtt addr n bs) := by
  have hbelow := hs.find_below hl hsplit hm has hbs
  unfold found
  cases hfind : bs.find? (matchesQuery rtt.heads (bitAt addr) n) with
  | none =>
    rw [hfind] at hbelow
    refine .inr ⟨rfl, ?_⟩
    intro p hp r' hstored
    obtain ⟨x, hx, -⟩ := hstored
    exact hbelow p hp x hx
  | some g =>
    rw [hfind] at hbelow
    obtain ⟨hlt, hmem, hmax⟩ := hbelow
    refine .inl ⟨g.val.bit, hlt, ⟨_, hmem, rfl⟩, ?_⟩
    intro p' hp' hlt' r' hstored
    obtain ⟨x, hx, -⟩ := hstored
    exact hmax p' hp' hlt' x hx

/-- The head of a node that the search has found. -/
theorem liveHead_spec (hs : Shape rtt t) (hquiet : Unmarked t) {s : Tree RtVal}
    (heq : plug bs s = t) :
    RtTable.liveHead rtt
      ((bs.find? (matchesQuery rtt.heads (bitAt addr) n)).elim NULL Frame.ptr) =
        .ok (found rtt addr n bs) := by
  unfold found
  cases hfind : bs.find? (matchesQuery rtt.heads (bitAt addr) n) with
  | none => rfl
  | some g =>
    have hg := List.mem_of_find?_eq_some hfind
    obtain ⟨a, b, hsplit⟩ := List.append_of_mem hg
    have hplug := heq
    rw [hsplit, plug_append] at hplug
    obtain ⟨node, hnode, -, -, -, hflags, -, -, hrth⟩ := hs.deref_frame hplug
    have hmark : node.marked = false := by
      rw [RtNode.marked, hflags]
      exact hquiet (g.ptr, g.val) (heq ▸ mem_pre_of_frame hg)
    show RtTable.liveHead rtt g.ptr = .ok g.val.rth
    rw [RtTable.liveHead, if_neg (hs.frame_ne_null heq hg), hnode, exec_bind_ok]
    simp [hmark, hrth]

/-- The climb to the nearest head. -/
theorem headAbove_spec (hs : Shape rtt t) : ∀ (fuel : Nat) (bs : List (Frame RtVal))
    (s : Tree RtVal), plug bs s = t → bs.length < fuel →
      RtTable.headAbove rtt fuel (Ctx.top NULL bs) =
        .ok ((bs.find? fun g => g.val.rth ≠ NULL).elim NULL fun g => g.val.rth) := by
  intro fuel
  induction fuel with
  | zero => intro bs s _ hlen; omega
  | succ fuel ih =>
    intro bs s heq hlen
    cases bs with
    | nil => rfl
    | cons g bs =>
      obtain ⟨node, hnode, hpar, -, -, -, -, -, hrth⟩ := hs.deref_frame heq
      have hne := hs.frame_ne_null heq (List.mem_cons_self (a := g) (l := bs))
      rw [Ctx.top_cons, RtTable.headAbove, if_neg hne, hnode, exec_bind_ok, hrth]
      by_cases h0 : g.val.rth = NULL
      · rw [if_pos h0, hpar, List.find?_cons_of_neg (by simp [h0])]
        exact ih bs _ heq (by simpa using hlen)
      · rw [if_neg h0, List.find?_cons_of_pos (by simp [h0])]
        rfl

/-- Above a matching node the heads are those that match. -/
theorem found_above (hs : Shape rtt t) (heq : plug (as ++ g :: bs) near = t)
    (hmatch : matchesQuery rtt.heads (bitAt addr) n g = true) :
    ((bs.find? fun x => x.val.rth ≠ NULL).elim NULL fun x => x.val.rth) =
      found rtt addr n bs := by
  simp only [matchesQuery, decide_eq_true_eq] at hmatch
  have hsame : ∀ x ∈ bs,
      decide (x.val.rth ≠ NULL) = matchesQuery rtt.heads (bitAt addr) n x := by
    intro x hx
    have hframe : x ∈ as ++ g :: bs := by simp [hx]
    have hlinked := hs.linked_frame heq hframe
    rw [Bool.eq_iff_iff, decide_eq_true_eq, matchesQuery, decide_eq_true_eq]
    constructor
    · intro h0
      obtain ⟨a, ha⟩ := hlinked.addr h0
      have hkey := key_view_of_addr h0 ha
      obtain ⟨b₁, b₂, hsplit⟩ := List.append_of_mem hx
      have hwf := hs.wf
      rw [← heq, hsplit, show as ++ g :: (b₁ ++ x :: b₂) = (as ++ g :: b₁) ++ x :: b₂ by simp] at hwf
      have hpre := hwf.key_of_frame_above (by simp) hmatch.2 hkey
      have hfirst := eq_firstBits_of_isPrefix hpre
      have hlen := hpre.length_le
      rw [length_firstBits, length_firstBits] at hlen
      rw [length_firstBits] at hfirst
      exact ⟨hlen.trans hmatch.1, hkey.trans (congrArg some hfirst)⟩
    · rintro ⟨-, hkey⟩ h0
      simp [view, h0] at hkey
  rw [List.find?_congr hsame, found]

/-- What both searches and the climb make of the node of the best match. -/
structure SecondBest (rtt : RtTable) (t : Tree RtVal) (addr : Addr) (n : Nat) (g : Frame RtVal)
    (node : RtNode) (less : Ptr) : Prop where
  deref : rtt.nodes.deref g.ptr = .ok node
  ptr : g.ptr ≠ NULL
  unmarked : node.marked = false
  rth : node.rtnRth = g.val.rth
  search : (RtTable.backtrack rtt addr n (rtt.nodes.bound + 1) node.rtnParent >>=
    RtTable.liveHead rtt) = .ok less
  climb : RtTable.headAbove rtt (rtt.nodes.bound + 1) node.rtnParent = .ok less
  longest : LongestBelow rtt t (bitAt addr) g.val.bit less

theorem secondBest (hs : Shape rtt t) (hquiet : Unmarked t)
    (hl : Landing (view rtt.heads) (bitAt addr) (fun v => decide (v.bit < n)) t f c near)
    (hfind : (f :: c).find? (matchesQuery rtt.heads (bitAt addr) n) = some g) :
    ∃ node less, SecondBest rtt t addr n g node less := by
  obtain ⟨hmatch, as, bs, hsplit, -⟩ := List.find?_eq_some_iff_append.mp hfind
  have hle : g.val.bit ≤ n := by
    simp only [matchesQuery, decide_eq_true_eq] at hmatch
    exact hmatch.1
  have hgpath : g ∈ f :: c := by simp [hsplit]
  have hplug := hl.plug_eq
  rw [hsplit] at hplug
  have hplug' := hplug
  rw [plug_append] at hplug'
  obtain ⟨node, hnode, hpar, -, -, hflags, -, -, hrth⟩ := hs.deref_frame hplug'
  have hmark : node.marked = false := by
    rw [RtNode.marked, hflags]
    exact hquiet (g.ptr, g.val) (hl.plug_eq ▸ mem_pre_of_frame hgpath)
  -- the second search and the climb go over the same part of the path
  have hlen : bs.length < rtt.nodes.bound + 1 := by
    have hbound := hs.length_path hl.plug_eq
    rw [hsplit, List.length_append, List.length_cons] at hbound
    omega
  have hprev := hs.backtrack_spec addr n _ bs _ hplug' hlen
  have hless : RtTable.liveHead rtt
      ((bs.find? (matchesQuery rtt.heads (bitAt addr) n)).elim NULL Frame.ptr) =
        .ok (found rtt addr n bs) :=
    hs.liveHead_spec hquiet hplug'
  have hclimb := hs.headAbove_spec _ bs _ hplug' hlen
  rw [hs.found_above hplug hmatch] at hclimb
  obtain ⟨k, hc, -⟩ := hl.split hs.wf
  have hsorted := hc.len_sorted
  rw [hsplit] at hsorted
  obtain ⟨-, hbelow, habove⟩ := List.pairwise_append.mp hsorted
  have hge : ∀ x ∈ as ++ [g], g.val.bit ≤ x.val.bit := by
    intro x hx
    rcases List.mem_append.mp hx with hx | hx
    · exact (habove x hx g (by simp)).le
    · rw [List.mem_singleton.mp hx]
  have hlongest := hs.longestBelow hl (show f :: c = (as ++ [g]) ++ bs by simp [hsplit])
    (m := g.val.bit) (by omega) hge fun x hx _ => List.rel_of_pairwise_cons hbelow hx
  refine ⟨node, found rtt addr n bs, hnode, hs.frame_ne_null hl.plug_eq hgpath, hmark, hrth, ?_, ?_,
    hlongest⟩
  · rw [hpar, hprev, exec_bind_ok]
    exact hless
  · rw [hpar]
    exact hclimb

end Shape

/-! ## Result -/

/-- What the lookups of less specific heads are to return for a query, `*lessbest` included. -/
structure LessSpecific (rtt : RtTable) (t : Tree RtVal) (addr : Option Addr) (bitlen : Nat)
    (lessbest b less : Ptr) : Prop where
  bestandprev : rtt.stdRadixGetbestandprev addr bitlen lessbest = .ok (b, less)
  best : rtt.stdRadixGetbest addr bitlen = .ok b
  nextbest : rtt.stdRadixGetnextbest addr bitlen = .ok less
  none : b = NULL → less = NULL
  longest : ∀ a ∈ addr, LongestBelow rtt t (bitAt (rtt.queryAddr a)) (bitlen + 1) b ∧
    ∀ p ≤ bitlen, Stored rtt t (firstBits (bitAt (rtt.queryAddr a)) p) b →
      LongestBelow rtt t (bitAt (rtt.queryAddr a)) p less
  above : b ≠ NULL → rtt.stdRadixGetlessspecific b = .ok less ∧ rtt.stdRadixGetparent b = .ok less

/-- Where there is an address and a table, all of them agree. -/
theorem Shape.lessSpecific {rtt : RtTable} {t : Tree RtVal} (hs : Shape rtt t)
    (hquiet : Unmarked t) (a : Addr) {bitlen : Nat} (hlen : bitlen ≤ rtt.rttMaxaddrlen)
    (hnil : t ≠ .nil) (lessbest : Ptr) :
    ∃ b less, LessSpecific rtt t (some a) bitlen lessbest b less := by
  have hroot := hs.root_eq_null.not.mpr hnil
  have hshort : (rtt.rttDebug && decide (rtt.rttMaxaddrlen < bitlen)) = false := by
    simp [Nat.not_lt.mpr hlen]
  obtain ⟨f, c, near, hl, hbest⟩ := hs.bestNode_spec hnil (rtt.queryAddr a) bitlen
  have hlongest := hs.longestBelow hl (List.nil_append (f :: c)).symm (m := bitlen + 1) le_rfl (by simp)
    fun x _ hmatch => by
      simp only [matchesQuery, decide_eq_true_eq] at hmatch
      omega
  have hlive : RtTable.liveHead rtt
      (((f :: c).find? (matchesQuery rtt.heads (bitAt (rtt.queryAddr a)) bitlen)).elim NULL
        Frame.ptr) = .ok (found rtt (rtt.queryAddr a) bitlen (f :: c)) :=
    hs.liveHead_spec hquiet hl.plug_eq
  cases hfind : (f :: c).find? (matchesQuery rtt.heads (bitAt (rtt.queryAddr a)) bitlen) with
  | none =>
    rw [hfind] at hbest hlive
    have hnone : found rtt (rtt.queryAddr a) bitlen (f :: c) = NULL := by
      rw [found, hfind]
      rfl
    rw [hnone] at hlongest
    refine ⟨NULL, NULL, ?_, ?_, ?_, fun _ => rfl, ?_, fun h => absurd rfl h⟩
    · simp [RtTable.stdRadixGetbestandprev, hshort, hroot, hbest]
    · simp [RtTable.stdRadixGetbest, hshort, hroot, hbest, RtTable.liveHead]
    · simp [RtTable.stdRadixGetnextbest, hshort, hroot, hbest]
    · intro a' ha'
      obtain rfl := Option.some.inj ha'
      exact ⟨hlongest, fun p hp hstored => absurd rfl hstored.ne_null⟩
  | some g =>
    obtain ⟨node, less, hsecond⟩ := hs.secondBest hquiet hl hfind
    have hfound : found rtt (rtt.queryAddr a) bitlen (f :: c) = g.val.rth := by
      rw [found, hfind]
      rfl
    rw [hfind] at hbest hlive
    rw [hfound] at hlive hlongest
    have h0 : g.val.rth ≠ NULL := by
      intro h0
      have hmatch := List.find?_some hfind
      simp [matchesQuery, view, h0] at hmatch
    have hgpath := List.mem_of_find?_eq_some hfind
    have hhead : rtt.readHead g.val.rth = .ok (rtt.heads g.val.rth) := by
      rw [RtTable.readHead, if_neg h0]
    have hrtn := (hs.linked_frame hl.plug_eq hgpath).rtn h0
    have hsearch := hsecond.search
    refine ⟨g.val.rth, less, ?_, ?_, ?_, fun h => absurd h h0, ?_, fun _ => ⟨?_, ?_⟩⟩
    · obtain ⟨prev, hprev, hless⟩ := exec_bind_eq_ok.mp hsearch
      simp [RtTable.stdRadixGetbestandprev, hshort, hroot, hbest, hsecond.ptr, hsecond.deref,
        hsecond.unmarked, hsecond.rth, hprev, hless]
    · simp only [RtTable.stdRadixGetbest, hshort, hbest, exec_bind_ok]
      simpa [hroot] using hlive
    · simpa [RtTable.stdRadixGetnextbest, hshort, hroot, hbest, hsecond.ptr, hsecond.deref,
        hsecond.unmarked] using hsearch
    · intro a' ha'
      obtain rfl := Option.some.inj ha'
      refine ⟨hlongest, fun p hp hstored => ?_⟩
      -- the best match is stored for no other prefix
      obtain ⟨x, hx, hxr⟩ := hstored
      have hmem := (mem_entries.mp hx).1
      have hg : (g.ptr, g.val) ∈ t.pre := hl.plug_eq ▸ mem_pre_of_frame hgpath
      have hxg := hs.rth_inj hmem hg (by rw [hxr]; exact h0) hxr
      have hlenx := (hs.wf.key_isPrefix hx).2
      rw [length_firstBits, hxg, len_view] at hlenx
      rw [hlenx]
      exact hsecond.longest
    · simp [RtTable.stdRadixGetlessspecific, assertThat, hhead, hrtn, hsecond.ptr, hsecond.deref,
        hsecond.climb]
    · simp [RtTable.stdRadixGetparent, hhead, hrtn, hsecond.deref, hsecond.climb]

/-- The lookups of less specific heads agree, and `*lessbest` is set, exactly when there is an
address and a table to search or `*lessbest` was `NULL` before. -/
theorem lessSpecific_iff {rtt : RtTable} {t : Tree RtVal} (hs : Shape rtt t) (hquiet : Unmarked t)
    (addr : Option Addr) (bitlen : Nat) (hlen : bitlen ≤ rtt.rttMaxaddrlen) (lessbest : Ptr) :
    (∃ b less, LessSpecific rtt t addr bitlen lessbest b less) ↔
      addr ≠ none ∧ rtt.rttRoot ≠ NULL ∨ lessbest = NULL := by
  cases addr with
  | none =>
    constructor
    · intro hagree
      obtain ⟨b, less, hagree⟩ := hagree
      obtain ⟨rfl, rfl⟩ := Prod.mk.inj (Except.ok.inj hagree.bestandprev)
      exact .inr (hagree.none rfl)
    · intro hcond
      have hnull : lessbest = NULL := hcond.resolve_left fun h => h.1 rfl
      subst hnull
      exact ⟨NULL, NULL, rfl, rfl, rfl, fun _ => rfl, by simp, fun h => absurd rfl h⟩
  | some a =>
    by_cases hnil : t = .nil
    · have hroot := hs.root_eq_null.mpr hnil
      have hshort : (rtt.rttDebug && decide (rtt.rttMaxaddrlen < bitlen)) = false := by
        simp [Nat.not_lt.mpr hlen]
      have hprev : rtt.stdRadixGetbestandprev (some a) bitlen lessbest = .ok (NULL, lessbest) := by
        simp [RtTable.stdRadixGetbestandprev, hshort, hroot]
      constructor
      · intro hagree
        obtain ⟨b, less, hagree⟩ := hagree
        have hsame := hagree.bestandprev
        rw [hprev] at hsame
        obtain ⟨rfl, rfl⟩ := Prod.mk.inj (Except.ok.inj hsame)
        exact .inr (hagree.none rfl)
      · intro hcond
        have hnull : lessbest = NULL := hcond.resolve_left fun h => h.2 hroot
        subst hnull
        subst hnil
        refine ⟨NULL, NULL, hprev, ?_, ?_, fun _ => rfl, ?_, fun h => absurd rfl h⟩
        · simp [RtTable.stdRadixGetbest, hshort, hroot]
        · simp [RtTable.stdRadixGetnextbest, hshort, hroot]
        · intro a' _
          exact ⟨.inr ⟨rfl, by simp [Stored]⟩, fun p _ hstored => absurd rfl hstored.ne_null⟩
    · constructor
      · intro _
        exact .inl ⟨by simp, hs.root_eq_null.not.mpr hnil⟩
      · intro _
        exact hs.lessSpecific hquiet a hlen hnil lessbest

/-- In the table of `sampleOps` whatever `*lessbest` was is replaced. -/
theorem lessSpecific_iff_sample : ∃ rtt t b less,
    Reached 32 rtt (TableOp.specAll PrefixMap.empty sampleOps).2 ∧
      LessSpecific rtt t (some fun i => if i = 0 then 10 else 1) 32 9 b less := by
  obtain ⟨rtt, h⟩ := exists_reached (by decide)
    (@Reached.create 32 true fun _ => default) sampleOps_allowed
  obtain ⟨t, ht, hlen⟩ := h.refines
  have hroot : rtt.rttRoot ≠ NULL := by
    intro hnull
    rw [ht.shape.root_eq_null] at hnull
    subst hnull
    have hstored : (TableOp.specAll PrefixMap.empty sampleOps).2
        (firstBits (bitAt fun i => if i = 0 then 10 else 1) 16) = some 3 := by decide
    rw [ht.empty_map] at hstored
    cases hstored
  obtain ⟨b, less, hagree⟩ := (lessSpecific_iff ht.shape (fun x hx => (ht.quiet x hx).1)
    (some fun i => if i = 0 then 10 else 1) 32 (by rw [hlen]) 9).mpr (.inl ⟨by simp, hroot⟩)
  exact ⟨rtt, t, b, less, h, hagree⟩

/-- In an empty table `*lessbest` keeps what it was. -/
theorem lessbest_kept : ¬ ∀ (rtt : RtTable) (t : Tree RtVal) (addr : Option Addr) (bitlen : Nat)
    (lessbest : Ptr), Shape rtt t → Unmarked t → bitlen ≤ rtt.rttMaxaddrlen →
      ∃ b less, LessSpecific rtt t addr bitlen lessbest b less := by
  intro hclaim
  have hempty := Refines.create 32 true fun _ => default
  obtain ⟨b, less, hagree⟩ := hclaim _ .nil (some fun _ => 0) 8 5 hempty.shape
    (fun x hx => (hempty.quiet x hx).1) (by decide)
  have hprev : (RtTable.stdRadixCreate 32 true fun _ => default).stdRadixGetbestandprev
      (some fun _ => 0) 8 5 = .ok (NULL, 5) := rfl
  have hnext : (RtTable.stdRadixCreate 32 true fun _ => default).stdRadixGetnextbest
      (some fun _ => 0) 8 = .ok NULL := rfl
  have hless := hagree.bestandprev.symm.trans hprev
  have hnull := hagree.nextbest.symm.trans hnext
  obtain ⟨-, rfl⟩ := Prod.mk.inj (Except.ok.inj hless)
  cases hnull

end OpxCommonUtils.Radix
