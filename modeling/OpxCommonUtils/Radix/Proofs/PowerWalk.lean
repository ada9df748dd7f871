import OpxCommonUtils.Radix.PowerWalk
import OpxCommonUtils.Radix.Proofs.FullWalk

/-!
# What a subtree walk visits

The stored prefixes that extend a root prefix are those of one part of the tree, whose top
`_std_radix_getsubtree` finds: exactly, or from whatever head `std_radix_getnext` returns, which
extends the root prefix if any stored prefix does. The loop of the walk goes through this part in
preorder.
-/

namespace OpxCommonUtils.Radix

open Tree Trie LinkTree

/-- The stored prefixes that extend `K`. -/
def PrefixMap.under (M : PrefixMap) (K : List Bool) : PrefixMap :=
  fun K' => if K <+: K' then M K' else none

theorem PrefixMap.under_eq_some {M : PrefixMap} {K K' : List Bool} {rth : Ptr} :
    M.under K K' = some rth ↔ K <+: K' ∧ M K' = some rth := by
  unfold PrefixMap.under
  split_ifs with hpre
  · simp [hpre]
  · simp [hpre]

/-- The part `s` of the tree in the context `c` holds the entries that extend `K`. -/
structure Part (rtt : RtTable) (t : Tree RtVal) (K : List Bool) (c : List (Frame RtVal))
    (s : Tree RtVal) : Prop where
  plug_eq : plug c s = t
  ne_nil : s ≠ .nil
  mem_iff : ∀ e ∈ entries (view rtt.heads) t, K <+: e.1 ↔ e ∈ entries (view rtt.heads) s

namespace Shape

variable {rtt : RtTable} {t : Tree RtVal}

/-- A climb goes to the top of the nodes `a` of at least `n` bits. -/
theorem climbTop_spec (hs : Shape rtt t) {n : Nat} (a b : List (Frame RtVal)) :
    ∀ (fuel : Nat) (s : Tree RtVal), plug (a ++ b) s = t → s ≠ .nil → (a ++ b).length < fuel →
      (∀ f ∈ a, n ≤ f.val.bit) → (∀ f ∈ b, f.val.bit < n) →
      RtTable.climbTop rtt.nodes n fuel (s.root NULL) = .ok ((plug a s).root NULL) := by
  intro fuel
  induction fuel generalizing a with
  | zero => intro s _ _ hlen; omega
  | succ fuel ih =>
    intro s heq hne hlen ha hb
    obtain ⟨m, hm, hpar⟩ := hs.deref_root heq hne
    rw [RtTable.climbTop, hm, exec_bind_ok, hpar]
    cases a with
    | cons f a =>
      obtain ⟨x, hx, -, hbit, -⟩ := hs.deref_frame heq
      rw [List.cons_append, Ctx.top_cons,
        if_neg (hs.frame_ne_null heq (List.mem_cons_self (a := f))), hx, exec_bind_ok, hbit,
        if_pos (ha f (by simp)), plug_cons]
      have hup := ih a (join f.side f.ptr f.val s f.sib) heq (join_ne_nil _ _ _ _ _)
        (by simpa using hlen) (fun g hg => ha g (by simp [hg])) hb
      rwa [root_join] at hup
    | nil =>
      cases b with
      | nil => simp
      | cons f b =>
        obtain ⟨x, hx, -, hbit, -⟩ := hs.deref_frame heq
        have hlt := hb f (by simp)
        rw [List.nil_append, Ctx.top_cons,
          if_neg (hs.frame_ne_null heq (List.mem_cons_self (a := f))), hx, exec_bind_ok, hbit,
          if_neg (by omega)]
        rfl

end Shape

/-- The query does not extend the first entry that the search for the next one comes to. -/
theorem not_isPrefix_of_first {heads : Ptr → RtHead} {t : Tree RtVal} {K : List Bool}
    {rest : List (Ptr × RtVal)} {e : List Bool × Ptr × RtVal} {es : List (List Bool × Ptr × RtVal)}
    (h : ¬ Trie.Astray (view heads) t K ∧ CutsAt (view heads) t K rest ∨
      Trie.Astray (view heads) t K ∧
        ∃ e es, (e.1 < K ∧ ¬ e.1 <+: K) ∧ entriesOf (view heads) rest = e :: es)
    (hes : entriesOf (view heads) rest = e :: es) : ¬ e.1 <+: K := by
  intro hpre
  rcases h with ⟨-, -, -, -, hlt⟩ | ⟨-, e', es', ⟨-, hnot⟩, hes'⟩
  · exact absurd (hlt e (by simp [hes])) (not_lt_of_ge (le_of_isPrefix hpre))
  · rw [hes] at hes'
    obtain ⟨rfl, -⟩ := List.cons.inj hes'
    exact hnot hpre

namespace Refines

variable {rtt : RtTable} {t : Tree RtVal} {M : PrefixMap}

/-- The part below the node of a stored prefix. -/
theorem part_of_mem (h : Refines rtt t M) {K : List Bool} {c : List (Frame RtVal)} {p : Ptr}
    {v : RtVal} {l r : Tree RtVal} (heq : plug c (.node p v l r) = t)
    (hmem : (K, p, v) ∈ entries (view rtt.heads) t) : Part rtt t K c (.node p v l r) where
  plug_eq := heq
  ne_nil := by simp
  mem_iff := by
    intro e he
    have hwf := h.shape.wf
    rw [← heq] at hwf he
    obtain ⟨k, hc, hnode⟩ := hwf.split
    obtain ⟨key, h1, h2, h3, h4, h5, h6⟩ := wf_node.mp hnode
    obtain rfl := h3 K (mem_entries.mp hmem).2
    constructor
    · intro hpre
      exact hc.mem_hole (h1.trans hpre) he
    · intro hin
      exact ((Wf.node (List.prefix_refl _) h2 h3 h4 h5 h6).key_isPrefix hin).1

/-- `_std_radix_getsubtree` finds the part of the tree that holds the entries which extend the
prefix, if there are any. -/
theorem getsubtree_spec (h : Refines rtt t M) (addr : Addr) {n : Nat} (hn : n ≤ 65528) :
    (∃ c s, Part rtt t (firstBits (bitAt addr) n) c s ∧
        rtt.stdRadixGetsubtree (some addr) n = .ok (s.root NULL)) ∨
      (∀ e ∈ entries (view rtt.heads) t, ¬ firstBits (bitAt addr) n <+: e.1) ∧
        rtt.stdRadixGetsubtree (some addr) n = .ok NULL := by
  have hq : rtt.queryAddr addr = addr := by rw [RtTable.queryAddr, h.plain.2.1]
  unfold RtTable.stdRadixGetsubtree
  simp only [h.plain.1, Bool.false_and, Bool.false_eq_true, if_false, hq]
  by_cases hnil : t = .nil
  · subst hnil
    rw [if_pos (h.shape.root_eq_null.mpr rfl)]
    exact .inr ⟨by simp, rfl⟩
  rw [if_neg (h.shape.root_eq_null.not.mpr hnil), h.getexact_spec, exec_bind_ok]
  cases hM : M (firstBits (bitAt addr) n) with
  | some rth =>
    -- the prefix itself is stored
    left
    have h0 := h.ne_null hM
    obtain ⟨⟨p, v⟩, hx, rfl⟩ := (h.stored _ _).mp hM
    have hmem := (mem_entries.mp hx).1
    obtain ⟨c, l, r, heq⟩ := exists_plug_of_mem_pre hmem
    refine ⟨c, _, h.part_of_mem heq hx, ?_⟩
    have hrtn : (rtt.heads v.rth).rthRtn = p := (h.shape.linked _ hmem).rtn h0
    rw [Option.getD_some, if_pos h0, RtTable.readHead, if_neg h0, exec_bind_ok, hrtn]
    rfl
  | none =>
    rw [Option.getD_none, if_neg (by simp)]
    obtain ⟨f, c, near, his, hl, h0, hhis, hcases⟩ := h.shape.nextStart_cases hnil addr hn
    have hkey := key_view_of_addr h0 hhis
    rcases hcases with ⟨hlong, hsame, hstart⟩ | ⟨hoff, p, rest, hstart, hcur, hrest⟩
    · -- the search lands below the top, to which the routine climbs from there
      left
      obtain ⟨a, g, b, k, hcut⟩ := hl.cut h.shape.wf hkey hlong.le hsame
      have hplug := hl.plug_eq
      rw [hcut.path_eq, plug_append, plug_cons] at hplug
      refine ⟨b, _, ⟨hplug, join_ne_nil _ _ _ _ _, fun e he => hcut.mem_entries_iff hl.plug_eq he⟩,
        ?_⟩
      rw [h.getnext_eq hnil hstart (.inr ⟨c, _, hl.plug_eq, join_ne_nil _ _ _ _ _,
        (root_join ..).symm, rfl⟩), exec_bind_ok]
      have hfirst : firstRth ((join f.side f.ptr f.val near f.sib).pre ++ Ctx.preAfter c) =
          f.val.rth := by
        cases f.side <;> simp [firstRth, join, pre, h0]
      have hcmp : rdxCompareAddress addr his (rnbyte n) (rnbit n) = false := by
        rw [rdxCompareAddress_eq_false, firstBits_eq_iff]
        exact hsame
      have hrtn := (h.shape.linked_frame hl.plug_eq (List.mem_cons_self (a := f))).rtn h0
      rw [hfirst, if_neg h0, rdxAddr_ok h0 hhis, exec_bind_ok, hcmp, if_neg (by simp),
        RtTable.readHead, if_neg h0, exec_bind_ok, hrtn]
      obtain ⟨a', rfl, hclimb, htop⟩ := hl.exists_climb h.shape.wf hcut
      have hlen := h.shape.length_path hl.plug_eq
      rw [List.length_cons] at hlen
      have habove : ∀ x ∈ a', n ≤ x.val.bit := by
        intro x hx
        exact hcut.le.trans (hclimb x hx)
      have hup := h.shape.climbTop_spec a' b (rtt.nodes.bound + 1) _ hl.plug_eq
        (join_ne_nil _ _ _ _ _) (by omega) habove hcut.above
      rw [htop, root_join, root_join] at hup
      rw [root_join]
      exact hup
    · right
      have hnone : ∀ e ∈ entries (view rtt.heads) t, ¬ firstBits (bitAt addr) n <+: e.1 := by
        refine hl.nothing_below h.shape.wf (Shape.passes_of_lt rtt.heads) hkey ?_
        rintro ⟨hle, hsame⟩
        rw [len_view] at hle
        rcases Nat.lt_or_eq_of_le hle with hlt | rfl
        · exact hoff ⟨hlt, hsame⟩
        · -- the landing node is that of the query
          rw [← firstBits_eq_iff.mpr hsame] at hkey
          rw [h.map_of_frame hl.plug_eq List.mem_cons_self hkey] at hM
          cases hM
      refine ⟨hnone, ?_⟩
      rw [h.getnext_eq hnil hstart hcur, exec_bind_ok,
        firstRth_eq fun x hx => h.shape.linked x (hcur.sublist.subset hx)]
      cases hes : entriesOf (view rtt.heads) rest with
      | nil => rfl
      | cons e es =>
        have hin : e ∈ entries (view rtt.heads) t :=
          entriesOf_subset (fun x hx => hcur.sublist.subset hx) e (by simp [hes])
        obtain ⟨hmem, hekey⟩ := mem_entries.mp hin
        have hr0 := h.ne_null ((h.stored e.1 _).mpr ⟨e.2, hin, rfl⟩)
        obtain ⟨a, ha⟩ := (h.shape.linked _ hmem).addr hr0
        rw [key_view_of_addr hr0 ha, Option.some_inj] at hekey
        have hcmp : rdxCompareAddress addr a (rnbyte n) (rnbit n) = true := by
          rw [← Bool.not_eq_false, rdxCompareAddress_eq_false]
          intro hbits
          rcases Nat.le_total n e.2.2.bit with hle | hle
          · refine hnone e hin ?_
            rw [hbits, ← hekey]
            exact firstBits_isPrefix _ hle
          · -- the head found has a shorter prefix, which does not match the query
            refine not_isPrefix_of_first hrest hes ?_
            rw [hbits, ← hekey]
            exact firstBits_isPrefix _ hle
        rw [List.head?_cons, Option.elim_some, if_neg hr0, rdxAddr_ok hr0 ha, exec_bind_ok]
        simp only [hcmp, if_true]
        rfl

end Refines

/-! ## The loop -/

/-- The pointer `p` stands at the first of the cells `rest`, with which the preorder of `s` ends, or
at the root of `s` when there are none. -/
def Onward (s : Tree RtVal) (rest : List (Ptr × RtVal)) (p : Ptr) : Prop :=
  (p = s.root NULL ∧ rest = []) ∨ p ≠ s.root NULL ∧
    ∃ d u, plug d u = s ∧ u ≠ .nil ∧ p = u.root NULL ∧ rest = u.pre ++ Ctx.preAfter d

namespace Shape

variable {rtt : RtTable} {t : Tree RtVal} {c : List (Frame RtVal)} {s : Tree RtVal}

/-- The root of a part of the subtree is the root of the subtree only if the part is all of it. -/
theorem root_eq_iff (hs : Shape rtt t) (heq : plug c s = t) {d : List (Frame RtVal)}
    {u : Tree RtVal} (hd : plug d u = s) (hne : u ≠ .nil) : u.root NULL = s.root NULL ↔ d = [] := by
  have hnd := hs.holds.nodup
  rw [← heq, nodup_plug] at hnd
  subst hd
  exact root_plug_eq_iff NULL hnd.1 hne

/-- Below the root of the subtree a node has a parent in it. -/
theorem deref_inside (hs : Shape rtt t) (heq : plug c s = t) {f : Frame RtVal}
    {d : List (Frame RtVal)} {u : Tree RtVal} (hd : plug (f :: d) u = s) (hne : u ≠ .nil) :
    ∃ n m, rtt.nodes.deref (u.root NULL) = .ok n ∧ n.rtnParent = f.ptr ∧ f.ptr ≠ NULL ∧
      rtt.nodes.deref f.ptr = .ok m ∧
      (m.rtnRight = u.root NULL ∨ m.rtnRight = NULL ↔ f.side = .right ∨ f.sib = .nil) ∧
      (f.side = .left → m.rtnRight = f.sib.root NULL) := by
  have hwhole : plug (f :: (d ++ c)) u = t := by
    rw [← List.cons_append, plug_append, hd, heq]
  obtain ⟨n, hn, hpar⟩ := hs.deref_root hwhole hne
  refine ⟨n, _, hn, hpar, hs.frame_ne_null hwhole (List.mem_cons_self ..),
    Heap.deref_ok (hs.get_frame hwhole), ?_, ?_⟩
  · have hsib : f.sib.root NULL = NULL ↔ f.sib = .nil :=
      hs.root_of_subtree (c := ⟨f.side.flip, f.ptr, f.val, u⟩ :: (d ++ c))
        (by rw [← plug_swap, ← hwhole])
    have hdiff : u.root NULL ≠ f.sib.root NULL :=
      Holds.root_ne _ (s := f.side) (p := f.ptr) (v := f.val) (c := d ++ c)
        (by rw [← plug_cons, hwhole]; exact hs.holds) (.inl hne)
    cases hside : f.side with
    | left => simp [mkSide, cell_rtNode, hsib, hdiff.symm]
    | right => simp [mkSide, cell_rtNode]
  · intro hside
    rw [hside]
    rfl

/-- The climb from a leaf goes on to the next branch of the subtree. -/
theorem powerwalkUp_spec (hs : Shape rtt t) (heq : plug c s = t) : ∀ (fuel : Nat)
    (d : List (Frame RtVal)) (u : Tree RtVal), plug d u = s → u ≠ .nil → d.length < fuel →
      ∃ p, RtTable.powerwalkUp rtt.nodes (s.root NULL) fuel (u.root NULL) = .ok p ∧
        Onward s (Ctx.preAfter d) p := by
  intro fuel
  induction fuel with
  | zero => intro d u _ _ hlen; omega
  | succ fuel ih =>
    intro d u hd hne hlen
    have hroot := hs.root_eq_iff heq hd hne
    cases d with
    | nil =>
      rw [RtTable.powerwalkUp, if_pos (hroot.mpr rfl)]
      exact ⟨_, rfl, .inl ⟨hroot.mpr rfl, rfl⟩⟩
    | cons f d =>
      obtain ⟨n, m, hn, hpar, hf0, hm, hgo, hright⟩ := hs.deref_inside heq hd hne
      rw [RtTable.powerwalkUp, if_neg (by simp [hroot]), hn, exec_bind_ok, hpar, if_neg hf0, hm,
        exec_bind_ok]
      by_cases hup : f.side = .right ∨ f.sib = .nil
      · rw [if_pos (hgo.mpr hup)]
        have hafter : Ctx.preAfter (f :: d) = Ctx.preAfter d := by
          rcases hup with hup | hup <;> cases hside : f.side <;> simp_all [Ctx.preAfter, pre]
        have hnext := ih d (join f.side f.ptr f.val u f.sib) hd (join_ne_nil _ _ _ _ _)
          (by simpa using hlen)
        rw [root_join] at hnext
        rw [hafter]
        exact hnext
      · rw [if_neg (hgo.not.mpr hup)]
        rw [not_or] at hup
        have hside : f.side = .left := by
          cases hf : f.side
          · rfl
          · exact absurd hf hup.1
        have hsib : plug (⟨f.side.flip, f.ptr, f.val, u⟩ :: d) f.sib = s := by
          rw [← plug_swap, ← hd]
        rw [hright hside]
        refine ⟨_, rfl, .inr ⟨?_, _, f.sib, hsib, hup.2, rfl, ?_⟩⟩
        · simp [hs.root_eq_iff heq hsib hup.2]
        · simp [Ctx.preAfter, hside, Side.flip]

/-- From a node the loop goes on to the next one of the subtree in preorder. -/
theorem powerwalkNext_spec (hs : Shape rtt t) (heq : plug c s = t) {d : List (Frame RtVal)}
    {p : Ptr} {v : RtVal} {l r : Tree RtVal} (hd : plug d (.node p v l r) = s) :
    ∃ q, RtTable.powerwalkNext rtt.nodes (s.root NULL) p = .ok q ∧
      Onward s (l.pre ++ r.pre ++ Ctx.preAfter d) q := by
  have hwhole : plug (d ++ c) (.node p v l r) = t := by rw [plug_append, hd, heq]
  have hl : plug (⟨.left, p, v, r⟩ :: d) l = s := hd
  have hr : plug (⟨.right, p, v, l⟩ :: d) r = s := hd
  have hleft : l.root NULL = NULL ↔ l = .nil :=
    hs.root_of_subtree (c := ⟨.left, p, v, r⟩ :: (d ++ c)) hwhole
  have hright : r.root NULL = NULL ↔ r = .nil :=
    hs.root_of_subtree (c := ⟨.right, p, v, l⟩ :: (d ++ c)) hwhole
  rw [RtTable.powerwalkNext, Heap.deref_ok (hs.get_node hwhole), exec_bind_ok]
  simp only [cell_rtNode]
  by_cases hlnil : l = .nil
  · rw [if_neg (by simp [hlnil])]
    by_cases hrnil : r = .nil
    · rw [if_neg (by simp [hrnil])]
      have hlen := hs.length_path hwhole
      rw [List.length_append] at hlen
      obtain ⟨q, hq, honward⟩ := hs.powerwalkUp_spec heq (rtt.nodes.bound + 1) d _ hd (by simp)
        (by omega)
      exact ⟨q, hq, by simpa [hlnil, hrnil, pre] using honward⟩
    · rw [if_pos (hright.not.mpr hrnil)]
      exact ⟨_, rfl, .inr ⟨by simp [hs.root_eq_iff heq hr hrnil], _, r, hr, hrnil, rfl,
        by simp [hlnil, pre, Ctx.preAfter]⟩⟩
  · rw [if_pos (hleft.not.mpr hlnil)]
    exact ⟨_, rfl, .inr ⟨by simp [hs.root_eq_iff heq hl hlnil], _, l, hl, hlnil, rfl,
      by simp [Ctx.preAfter]⟩⟩

/-- The loop visits the heads of the cells in preorder. -/
theorem powerwalkLoop_spec (hs : Shape rtt t) (heq : plug c s = t)
    (hquiet : ∀ x ∈ t.pre, rdxTestBit x.2.flags RDX_RN_DELE_BIT = false) : ∀ (fuel : Nat)
      (d : List (Frame RtVal)) (u : Tree RtVal), plug d u = s → u ≠ .nil →
      (u.pre ++ Ctx.preAfter d).length < fuel →
      RtTable.powerwalkLoop rtt.nodes (s.root NULL) fuel (u.root NULL) =
        .ok (headsOf (u.pre ++ Ctx.preAfter d)) := by
  intro fuel
  induction fuel with
  | zero => intro d u _ _ hlen; omega
  | succ fuel ih =>
    intro d u hd hne hlen
    cases u with
    | nil => exact absurd rfl hne
    | node p v l r =>
      have hwhole : plug (d ++ c) (.node p v l r) = t := by rw [plug_append, hd, heq]
      have hmark : rdxTestBit v.flags RDX_RN_DELE_BIT = false :=
        hquiet (p, v) (by rw [← hwhole, mem_pre_plug]; exact .inl (by simp [pre]))
      have hrths : (if v.rth ≠ NULL then [v.rth] else []) = headsOf [(p, v)] := by
        by_cases h0 : v.rth = NULL <;> simp [headsOf, h0]
      obtain ⟨q, hq, honward⟩ := hs.powerwalkNext_spec heq hd
      rw [root_node, RtTable.powerwalkLoop, Heap.deref_ok (hs.get_node hwhole), exec_bind_ok]
      simp only [cell_rtNode, RtNode.marked, hmark, and_true, hrths, hq, exec_bind_ok]
      have hcells : (Tree.node p v l r).pre ++ Ctx.preAfter d =
          [(p, v)] ++ (l.pre ++ r.pre ++ Ctx.preAfter d) := by simp [pre]
      rw [hcells, headsOf_append]
      rcases honward with ⟨hroot, hrest⟩ | ⟨hroot, d', u', hd', hne', rfl, hrest⟩
      · rw [if_pos hroot, hrest]
        exact congrArg Except.ok (List.append_nil _).symm
      · rw [hcells, hrest] at hlen
        rw [if_neg hroot, hrest, ih d' u' hd' hne' (by simpa using hlen)]
        rfl

/-- The climb from a node of the subtree meets its root. -/
theorem insubtree_spec (hs : Shape rtt t) (heq : plug c s = t) : ∀ (fuel : Nat)
    (d : List (Frame RtVal)) (u : Tree RtVal), plug d u = s → u ≠ .nil → d.length < fuel →
      RtTable.insubtree rtt.nodes (s.root NULL) fuel (u.root NULL) = .ok true := by
  intro fuel
  induction fuel with
  | zero => intro d u _ _ hlen; omega
  | succ fuel ih =>
    intro d u hd hne hlen
    have hroot := hs.root_eq_iff heq hd hne
    have hwhole : plug (d ++ c) u = t := by rw [plug_append, hd, heq]
    have h0 := (hs.root_of_subtree hwhole).not.mpr hne
    rw [RtTable.insubtree, if_neg h0]
    cases d with
    | nil => rw [if_pos (hroot.mpr rfl)]
    | cons f d =>
      obtain ⟨n, m, hn, hpar, -⟩ := hs.deref_inside heq hd hne
      have hup := ih d (join f.side f.ptr f.val u f.sib) hd (join_ne_nil _ _ _ _ _)
        (by simpa using hlen)
      rw [root_join] at hup
      rw [if_neg (by simp [hroot]), hn, exec_bind_ok, hpar]
      exact hup

end Shape

/-! ## Result -/

namespace Refines

variable {rtt : RtTable} {t : Tree RtVal} {M : PrefixMap} {K : List Bool}
  {c : List (Frame RtVal)} {s : Tree RtVal}

/-- The entries of the part in order. -/
theorem listing_part (h : Refines rtt t M) (hs : Part rtt t K c s) :
    (M.under K).Listing (listing rtt s) where
  sorted := by
    rw [listing, List.pairwise_map]
    have hsorted := h.shape.wf.sorted
    rw [← hs.plug_eq, entries_plug, List.append_assoc] at hsorted
    exact (List.pairwise_append.mp (List.pairwise_append.mp hsorted).2.1).1
  mem := by
    intro K' rth
    rw [PrefixMap.under_eq_some, h.stored, listing, List.mem_map]
    constructor
    · rintro ⟨⟨k, x⟩, hx, heq⟩
      obtain ⟨rfl, rfl⟩ := Prod.mk.inj heq
      have hin : (k, x) ∈ entries (view rtt.heads) t := by
        rw [← hs.plug_eq, entries_plug]
        simp [hx]
      exact ⟨(hs.mem_iff _ hin).mpr hx, x, hin, rfl⟩
    · rintro ⟨hpre, x, hx, rfl⟩
      exact ⟨(K', x), (hs.mem_iff _ hx).mp hpre, rfl⟩

theorem heads_part (h : Refines rtt t M) (hs : plug c s = t) :
    (listing rtt s).map Prod.snd = headsOf s.pre := by
  have hlinked : ∀ x ∈ s.pre, Linked rtt.heads x := by
    intro x hx
    refine h.shape.linked x ?_
    rw [← hs, mem_pre_plug]
    exact .inl hx
  rw [headsOf_eq hlinked, entriesOf_pre, listing, List.map_map]
  rfl

/-- The entries of a part of the tree at one of its nodes. -/
theorem listing_at (h : Refines rtt t M) (hs : plug c s = t) {d : List (Frame RtVal)} {p : Ptr}
    {v : RtVal} {l r : Tree RtVal} (hd : plug d (.node p v l r) = s)
    (hkey : (view rtt.heads).key v = some K) :
    listing rtt s = (before (view rtt.heads) d).map (fun e => (e.1, e.2.2.rth)) ++
        (K, v.rth) :: (entriesOf (view rtt.heads) (l.pre ++ r.pre ++ Ctx.preAfter d)).map
          (fun e => (e.1, e.2.2.rth)) ∧
      headsOf ((Tree.node p v l r).pre ++ Ctx.preAfter d) =
        v.rth :: ((entriesOf (view rtt.heads) (l.pre ++ r.pre ++ Ctx.preAfter d)).map
          (fun e => (e.1, e.2.2.rth))).map Prod.snd := by
  have hlinked : ∀ x ∈ l.pre ++ r.pre ++ Ctx.preAfter d, Linked rtt.heads x := by
    intro x hx
    refine h.shape.linked x ?_
    rw [← hs, mem_pre_plug]
    left
    rw [← hd, pre_plug]
    simp only [pre, List.mem_append, List.mem_cons] at hx ⊢
    tauto
  have h0 : v.rth ≠ NULL := by
    intro h0
    simp [view, h0] at hkey
  constructor
  · rw [listing, ← hd, entries_plug, entries_node, hkey]
    simp
  · rw [pre, List.cons_append, headsOf_cons _ h0, headsOf_eq hlinked, List.map_map]
    rfl

/-- A walk of the part from one of its nodes on. -/
theorem powerwalk_part (h : Refines rtt t M) (hs : Part rtt t K c s) {d : List (Frame RtVal)}
    {u : Tree RtVal} (hd : plug d u = s) (hne : u ≠ .nil) :
    RtTable.insubtree rtt.nodes (s.root NULL) (rtt.nodes.bound + 1) (u.root NULL) = .ok true ∧
      RtTable.powerwalkLoop rtt.nodes (s.root NULL) (rtt.nodes.bound + 1) (u.root NULL) =
        .ok (headsOf (u.pre ++ Ctx.preAfter d)) := by
  have hwhole : plug (d ++ c) u = t := by rw [plug_append, hd, hs.plug_eq]
  have hlen := h.shape.length_path hwhole
  rw [List.length_append] at hlen
  refine ⟨h.shape.insubtree_spec hs.plug_eq _ d u hd hne (by omega), ?_⟩
  refine h.shape.powerwalkLoop_spec hs.plug_eq (fun x hx => (h.quiet x hx).1) _ d u hd hne ?_
  have hsize := h.shape.holds.size_le
  rw [← length_ptrs, ← map_fst_pre, List.length_map, ← hs.plug_eq, pre_plug, ← hd,
    pre_plug] at hsize
  simp only [List.length_append] at hsize ⊢
  omega

end Refines

/-- The walk of the subtree of a root prefix of at most 65528 bits visits the stored prefixes that
extend it in lexicographic order, all of them or those from a given one on, and there is a root
exactly when there are any. -/
theorem subtree_walk_exact {maxaddrlen : Nat} {rtt : RtTable} {M : PrefixMap}
    (h : Reached maxaddrlen rtt M) (rootaddr : Addr) (rootlen : Nat) (hlen : rootlen ≤ 65528) :
    ∃ L root, (M.under (firstBits (bitAt rootaddr) rootlen)).Listing L ∧
      rtt.stdRadixGetsubtree (some rootaddr) rootlen = .ok root ∧ (root = NULL ↔ L = []) ∧
      (∀ nextlen, rtt.stdRadixPowerwalk (some rootaddr) rootlen none nextlen =
        .ok (L.map Prod.snd)) ∧
      ∀ nextaddr nextlen rth,
        M.under (firstBits (bitAt rootaddr) rootlen) (firstBits (bitAt nextaddr) nextlen) =
          some rth →
        ∃ before after, L = before ++ (firstBits (bitAt nextaddr) nextlen, rth) :: after ∧
          rtt.stdRadixPowerwalk (some rootaddr) rootlen (some nextaddr) nextlen =
            .ok (rth :: after.map Prod.snd) := by
  obtain ⟨t, ht, -⟩ := h.refines
  rcases ht.getsubtree_spec rootaddr hlen with ⟨c, s, hs, hroot⟩ | ⟨hnone, hroot⟩
  · have h0 : s.root NULL ≠ NULL := (ht.shape.root_of_subtree hs.plug_eq).not.mpr hs.ne_nil
    have hfrom : ∀ {first nextaddr nextlen d u}, plug d u = s → u ≠ .nil →
        rtt.powerwalkFirst (s.root NULL) nextaddr nextlen = .ok first → first = u.root NULL →
        rtt.stdRadixPowerwalk (some rootaddr) rootlen nextaddr nextlen =
          .ok (headsOf (u.pre ++ Ctx.preAfter d)) := by
      intro first nextaddr nextlen d u hd hne hfirst hu
      obtain ⟨hin, hloop⟩ := ht.powerwalk_part hs hd hne
      have hu0 : u.root NULL ≠ NULL := by
        refine (ht.shape.root_of_subtree (c := d ++ c) ?_).not.mpr hne
        rw [plug_append, hd, hs.plug_eq]
      rw [RtTable.stdRadixPowerwalk, Option.isSome_some, if_pos rfl, hroot, exec_bind_ok]
      dsimp only
      rw [hfirst, exec_bind_ok, hu, hin, exec_bind_ok, if_pos ⟨h0, hu0, rfl⟩, hloop]
    refine ⟨listing rtt s, s.root NULL, ht.listing_part hs, hroot, iff_of_false h0 ?_, ?_, ?_⟩
    · have hwf := ht.shape.wf
      rw [← hs.plug_eq] at hwf
      obtain ⟨k, -, hwfs⟩ := hwf.split
      obtain ⟨e, he⟩ := hwfs.exists_entry hs.ne_nil
      rw [listing, List.map_eq_nil_iff]
      exact List.ne_nil_of_mem he
    · intro nextlen
      rw [ht.heads_part hs.plug_eq, hfrom (d := []) rfl hs.ne_nil rfl rfl]
      simp [Ctx.preAfter]
    · intro nextaddr nextlen rth hM
      obtain ⟨hpre, hM⟩ := PrefixMap.under_eq_some.mp hM
      have hr0 := ht.ne_null hM
      obtain ⟨⟨p, v⟩, hx, rfl⟩ := (ht.stored _ _).mp hM
      have hxs := (hs.mem_iff _ hx).mp hpre
      obtain ⟨hmem, hkey⟩ := mem_entries.mp hxs
      obtain ⟨d, l, r, hd⟩ := exists_plug_of_mem_pre hmem
      have hrtn : (rtt.heads v.rth).rthRtn = p :=
        (ht.shape.linked _ (mem_entries.mp hx).1).rtn hr0
      have hfirst : rtt.powerwalkFirst (s.root NULL) (some nextaddr) nextlen = .ok p := by
        rw [RtTable.powerwalkFirst, Option.isNone_some, if_neg (by simp), ht.getexact_spec,
          exec_bind_ok, hM, Option.getD_some, if_pos hr0, RtTable.readHead, if_neg hr0,
          exec_bind_ok, hrtn]
        rfl
      obtain ⟨hlisting, hheads⟩ := ht.listing_at hs.plug_eq hd hkey
      refine ⟨_, _, hlisting, ?_⟩
      rw [hfrom hd (by simp) hfirst rfl, hheads]
  · refine ⟨[], NULL, ⟨List.Pairwise.nil, ?_⟩, hroot, by simp, ?_, ?_⟩
    · intro K rth
      rw [PrefixMap.under_eq_some, ht.stored]
      refine iff_of_false (by simp) ?_
      rintro ⟨hpre, x, hx, -⟩
      exact hnone _ hx hpre
    · intro nextlen
      rw [RtTable.stdRadixPowerwalk, Option.isSome_some, if_pos rfl, hroot, exec_bind_ok]
      rfl
    · intro nextaddr nextlen rth hM
      obtain ⟨hpre, hM⟩ := PrefixMap.under_eq_some.mp hM
      obtain ⟨x, hx, -⟩ := (ht.stored _ _).mp hM
      exact absurd hpre (hnone _ hx)

/-- Under 10.0/12, which is not stored, is 10.0/16. -/
theorem walkOps_under : ((TableOp.specAll PrefixMap.empty walkOps).2.under
    (firstBits (bitAt fun i => if i = 0 then 10 else 0) 12)).Listing
      [(firstBits (bitAt fun i => if i = 0 then 10 else 0) 16, 2)] := by
  constructor
  · exact List.pairwise_singleton _ _
  · intro K rth
    rw [PrefixMap.under_eq_some, ← walkOps_listing.mem]
    simp only [walkKeys, List.mem_cons, List.not_mem_nil, or_false, Prod.mk.injEq]
    constructor
    · intro hK
      exact ⟨by rw [hK.1]; decide, .inr (.inl hK)⟩
    · rintro ⟨hpre, ⟨rfl, -⟩ | hK | ⟨rfl, -⟩⟩
      · exact absurd hpre (by decide)
      · exact hK
      · exact absurd hpre (by decide)

/-- A walk below 10.0/12 visits 10.0/16. -/
theorem subtree_walk_exact_sample : ∃ rtt,
    Reached 32 rtt (TableOp.specAll PrefixMap.empty walkOps).2 ∧
      rtt.stdRadixPowerwalk (some fun i => if i = 0 then 10 else 0) 12 none 0 = .ok [2] := by
  obtain ⟨rtt, h⟩ := exists_reached (by decide)
    (@Reached.create 32 true fun _ => default) walkOps_allowed
  obtain ⟨L, root, hL, -, -, hwalk, -⟩ :=
    subtree_walk_exact h (fun i => if i = 0 then 10 else 0) 12 (by decide)
  refine ⟨rtt, h, ?_⟩
  rw [hwalk, hL.unique walkOps_under]
  rfl

/-- In a table with one head of 65535 bits, the search for the subtree of a prefix of 65530 bits
never ends. -/
theorem getsubtree_wraps : ∃ rtt M, Reached 65535 rtt M ∧
    rtt.stdRadixGetsubtree (some fun _ => 0) 65530 = .error .diverges := by
  obtain ⟨rtt, hrun, hroot, hget, haddr, hdebug, hconv, -⟩ := first_insert 65535
  have hallow : (TableOp.insert .above true 1 (fun _ => 0) 65535).Allowed 65535
      PrefixMap.empty := ⟨by decide, by decide, by simp [PrefixMap.empty]⟩
  refine ⟨rtt, _, Reached.create.step hallow hrun, ?_⟩
  have hne : rtt.rttRoot ≠ NULL := by simp [hroot]
  have hnode : rtt.nodes.deref rtt.rttRoot = .ok { RtNode.new 65535 with rtnRth := 1 } := by
    rw [hroot]
    exact Heap.deref_ok hget
  have hstop : RtTable.descend rtt.nodes (RtTable.shorter 65530) (fun _ => 0)
      (rtt.nodes.bound + 1) rtt.rttRoot = .ok rtt.rttRoot := by
    rw [RtTable.descend, hnode]
    rfl
  have hquery : rtt.queryAddr (fun _ => 0) = fun _ => 0 := by rw [RtTable.queryAddr, hconv]
  have hexact : rtt.stdRadixGetexact (some fun _ => 0) 65530 = .ok NULL := by
    unfold RtTable.stdRadixGetexact
    simp only [hdebug, Bool.false_and, Bool.false_eq_true, if_false, hne]
    rw [hstop, exec_bind_ok, hnode]
    rfl
  have hstart := nextStart_wraps hroot hget haddr
  unfold RtTable.stdRadixGetsubtree RtTable.stdRadixGetnext
  simp only [hdebug, Bool.false_and, Bool.false_eq_true, if_false, hne, hexact, exec_bind_ok,
    hquery, hstart, exec_bind_error]
  rfl

end OpxCommonUtils.Radix
