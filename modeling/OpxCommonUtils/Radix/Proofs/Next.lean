import OpxCommonUtils.Misc.TrieNext
import OpxCommonUtils.Radix.Proofs.Lookup

/-!
# The next entry

`std_radix_getnext` is to return the head of the least stored prefix greater than the query. Its
loops move a cursor through the preorder of the nodes (`Cursor`), which lists the stored prefixes
in increasing order. The landing node of the query tells where the greater prefixes begin, except
when the query goes on to the right of the landing node, nothing is there, and the node has a
left branch: the routine enters that branch, whose prefixes are smaller than the query.
-/

namespace OpxCommonUtils.Radix

open Tree Trie LinkTree

/-- The pointer `p` stands at the first of the cells `rest`, with which the preorder of `t` ends,
or is `NULL` when there are none. -/
def Cursor (t : Tree RtVal) (rest : List (Ptr × RtVal)) (p : Ptr) : Prop :=
  (p = NULL ∧ rest = []) ∨
    ∃ c s, plug c s = t ∧ s ≠ .nil ∧ p = s.root NULL ∧ rest = s.pre ++ Ctx.preAfter c

theorem Cursor.sublist {t : Tree RtVal} {rest : List (Ptr × RtVal)} {p : Ptr}
    (h : Cursor t rest p) : rest.Sublist t.pre := by
  rcases h with ⟨-, rfl⟩ | ⟨c, s, rfl, -, -, rfl⟩
  · exact List.nil_sublist _
  · rw [pre_plug, List.append_assoc]
    exact List.sublist_append_right _ _

/-- The first head among cells, `NULL` when there is none. -/
def firstRth (cells : List (Ptr × RtVal)) : Ptr :=
  (cells.find? (fun x => x.2.rth != NULL)).elim NULL (fun x => x.2.rth)

/-- The first head is that of the first entry. -/
theorem firstRth_eq {heads : Ptr → RtHead} {cells : List (Ptr × RtVal)}
    (hlinked : ∀ x ∈ cells, Linked heads x) : firstRth cells =
      ((entriesOf (view heads) cells).head?).elim NULL (fun e => e.2.2.rth) := by
  induction cells with
  | nil => rfl
  | cons x cells ih =>
    have hx := hlinked x (by simp)
    have ih := ih fun y hy => hlinked y (by simp [hy])
    by_cases h0 : x.2.rth = NULL
    · have hkey := (key_view_eq_none hx).mpr h0
      simpa [firstRth, entriesOf, h0, hkey] using ih
    · obtain ⟨a, ha⟩ := hx.addr h0
      simp [firstRth, entriesOf, h0, key_view_of_addr h0 ha]

namespace Shape

variable {rtt : RtTable} {t : Tree RtVal}

/-- The cell of the root of a subtree knows the node above. -/
theorem deref_root (hs : Shape rtt t) {c : List (Frame RtVal)} {s : Tree RtVal}
    (heq : plug c s = t) (hne : s ≠ .nil) :
    ∃ n, rtt.nodes.deref (s.root NULL) = .ok n ∧ n.rtnParent = Ctx.top NULL c := by
  cases s with
  | nil => exact absurd rfl hne
  | node p v l r => exact ⟨_, Heap.deref_ok (hs.get_node heq), rfl⟩

/-- A climb out of `s` over the nodes `a` that are skipped goes on with the cells after the
context `b` that is left. -/
theorem climbBranch_spec (hs : Shape rtt t) (ok skip : RtNode → Bool) (okV skipV : RtVal → Bool)
    (hok : ∀ s x y p v, ok (mkSide s x y p v) = okV v)
    (hskip : ∀ s x y p v, skip (mkSide s x y p v) = skipV v) (a b : List (Frame RtVal)) :
    ∀ (fuel : Nat) (s : Tree RtVal), plug (a ++ b) s = t → s ≠ .nil → (a ++ b).length < fuel →
      (∀ f ∈ a ++ b, okV f.val = true) → (∀ f ∈ a, skipV f.val = true) →
      (∀ f ∈ b, skipV f.val = false) →
      ∃ p, RtTable.climbBranch rtt.nodes ok skip fuel (s.root NULL) = .ok p ∧
        Cursor t (Ctx.preAfter b) p := by
  intro fuel
  induction fuel generalizing a b with
  | zero => intro s _ _ hlen; omega
  | succ fuel ih =>
    intro s heq hne hlen hall ha hb
    obtain ⟨m, hm, hpar⟩ := hs.deref_root heq hne
    rw [RtTable.climbBranch, hm, exec_bind_ok]
    dsimp only
    rw [hpar]
    have hstep : ∀ (f : Frame RtVal) (d : List (Frame RtVal)), plug (f :: d) s = t →
        okV f.val = true →
        (do
          let n ← rtt.nodes.deref f.ptr
          assertThat (ok n)
          if skip n || n.rtnRight = NULL || n.rtnRight = s.root NULL then
            RtTable.climbBranch rtt.nodes ok skip fuel f.ptr
          else return n.rtnRight) =
        if skipV f.val = true ∨ f.side = .right ∨ f.sib = .nil then
          RtTable.climbBranch rtt.nodes ok skip fuel
            ((join f.side f.ptr f.val s f.sib).root NULL)
        else .ok (f.sib.root NULL) := by
      intro f d hfd hf
      rw [Heap.deref_ok (hs.get_frame hfd), exec_bind_ok, hok, hf, assertThat_true, exec_bind_ok,
        hskip, root_join]
      have hsib : f.sib.root NULL = NULL ↔ f.sib = .nil :=
        hs.root_of_subtree (c := ⟨f.side.flip, f.ptr, f.val, s⟩ :: d) (by rw [← plug_swap, ← hfd])
      cases hside : f.side with
      | right => simp [mkSide, cell_rtNode]
      | left =>
        have hdiff : s.root NULL ≠ f.sib.root NULL :=
          Holds.root_ne _ (s := f.side) (p := f.ptr) (v := f.val) (c := d)
            (by rw [← plug_cons, hfd]; exact hs.holds) (.inl hne)
        simp only [mkSide, cell_rtNode, hsib, hdiff.symm, decide_false, Bool.or_false,
          Bool.or_eq_true, decide_eq_true_eq, reduceCtorEq, false_or]
        rfl
    cases a with
    | cons f a =>
      rw [List.cons_append] at heq
      rw [List.cons_append, Ctx.top_cons,
        if_neg (hs.frame_ne_null heq (List.mem_cons_self (a := f)))]
      refine (hstep f (a ++ b) heq (hall f (by simp))).symm ▸ ?_
      rw [if_pos (.inl (ha f (by simp)))]
      exact ih a b _ heq (join_ne_nil _ _ _ _ _) (by simpa using hlen)
        (fun g hg => hall g (by simp_all)) (fun g hg => ha g (by simp [hg])) hb
    | nil =>
      rw [List.nil_append] at heq hlen hall ⊢
      cases b with
      | nil => exact ⟨NULL, by simp, .inl ⟨rfl, rfl⟩⟩
      | cons f b =>
        rw [Ctx.top_cons, if_neg (hs.frame_ne_null heq (List.mem_cons_self (a := f)))]
        refine (hstep f b heq (hall f (by simp))).symm ▸ ?_
        have hskipf := hb f (by simp)
        by_cases hgo : f.side = .right ∨ f.sib = .nil
        · rw [if_pos (.inr hgo)]
          have hafter : Ctx.preAfter (f :: b) = Ctx.preAfter b := by
            rcases hgo with hgo | hgo <;> cases hside : f.side <;> simp_all [Ctx.preAfter, pre]
          rw [hafter]
          exact ih [] b _ heq (join_ne_nil _ _ _ _ _) (by simpa using hlen)
            (fun g hg => hall g (by simp_all)) (by simp) (fun g hg => hb g (by simp [hg]))
        · rw [if_neg (by simpa [hskipf] using hgo)]
          rw [not_or] at hgo
          have hside : f.side = .left := by
            cases hf : f.side
            · rfl
            · exact absurd hf hgo.1
          refine ⟨_, rfl, .inr ⟨⟨f.side.flip, f.ptr, f.val, s⟩ :: b, f.sib, ?_, hgo.2, rfl, ?_⟩⟩
          · rw [← plug_swap, ← heq]
          · simp [Ctx.preAfter, hside, Side.flip]

/-- The node after a node in preorder. -/
theorem preorderNext_spec (hs : Shape rtt t) {c : List (Frame RtVal)} {q : Ptr} {v : RtVal}
    {l r : Tree RtVal} (heq : plug c (.node q v l r) = t) :
    ∃ p, RtTable.preorderNext rtt.nodes q = .ok p ∧
      Cursor t (l.pre ++ r.pre ++ Ctx.preAfter c) p := by
  rw [RtTable.preorderNext, Heap.deref_ok (hs.get_node heq), exec_bind_ok]
  simp only [cell_rtNode]
  have hleft : plug (⟨.left, q, v, r⟩ :: c) l = t := heq
  have hright : plug (⟨.right, q, v, l⟩ :: c) r = t := heq
  by_cases hl : l = .nil
  · rw [if_neg (by simp [(hs.root_of_subtree hleft).mpr hl])]
    by_cases hr : r = .nil
    · rw [if_neg (by simp [(hs.root_of_subtree hright).mpr hr])]
      have hlen := hs.length_path heq
      obtain ⟨p, hp, hcur⟩ := hs.climbBranch_spec (fun _ => true) (fun _ => false) _ _
        (fun _ _ _ _ _ => rfl)
        (fun _ _ _ _ _ => rfl) [] c (rtt.nodes.bound + 1) _ heq (by simp)
        (by rw [List.nil_append]; omega) (by simp) (by simp) (by simp)
      exact ⟨p, hp, by simpa [hl, hr, pre] using hcur⟩
    · rw [if_pos (by simpa using (hs.root_of_subtree hright).not.mpr hr)]
      exact ⟨_, rfl, .inr ⟨_, r, hright, hr, rfl, by simp [hl, pre, Ctx.preAfter]⟩⟩
  · rw [if_pos (by simpa using (hs.root_of_subtree hleft).not.mpr hl)]
    exact ⟨_, rfl, .inr ⟨_, l, hleft, hl, rfl, by simp [Ctx.preAfter]⟩⟩

/-- A climb to the top of a branch passes the nodes `a` that are longer than `d`. -/
theorem climbGreater_spec (hs : Shape rtt t) {d : Nat} (a b : List (Frame RtVal)) :
    ∀ (fuel : Nat) (s : Tree RtVal), plug (a ++ b) s = t → s ≠ .nil → (a ++ b).length < fuel →
      (∀ f ∈ a, d < f.val.bit) → (∀ f ∈ b, f.val.bit < d) →
      RtTable.climbGreater rtt.nodes d fuel (s.root NULL) = .ok ((plug a s).root NULL) := by
  intro fuel
  induction fuel generalizing a with
  | zero => intro s _ _ hlen; omega
  | succ fuel ih =>
    intro s heq hne hlen ha hb
    obtain ⟨m, hm, hpar⟩ := hs.deref_root heq hne
    rw [RtTable.climbGreater, hm, exec_bind_ok]
    dsimp only
    rw [hpar]
    cases a with
    | cons f a =>
      obtain ⟨n, hn, -, hbit, -⟩ := hs.deref_frame heq
      rw [List.cons_append, Ctx.top_cons,
        if_neg (hs.frame_ne_null heq (List.mem_cons_self (a := f))), hn, exec_bind_ok, hbit,
        if_pos (ha f (by simp)), plug_cons]
      have hup := ih a (join f.side f.ptr f.val s f.sib) heq (join_ne_nil _ _ _ _ _)
        (by simpa using hlen) (fun g hg => ha g (by simp [hg])) hb
      rwa [root_join] at hup
    | nil =>
      cases b with
      | nil => simp
      | cons f b =>
        obtain ⟨n, hn, -, hbit, -⟩ := hs.deref_frame heq
        have hlt := hb f (by simp)
        rw [List.nil_append, Ctx.top_cons,
          if_neg (hs.frame_ne_null heq (List.mem_cons_self (a := f))), hn, exec_bind_ok, hbit,
          if_neg (by omega)]
        rfl

/-- The search for a head goes through the cells in order. -/
theorem firstHead_spec (hs : Shape rtt t) :
    ∀ (fuel : Nat) (rest : List (Ptr × RtVal)) (p : Ptr), Cursor t rest p → rest.length < fuel →
      RtTable.firstHead rtt.nodes fuel p = .ok (firstRth rest) := by
  intro fuel
  induction fuel with
  | zero => intro rest p _ hlen; omega
  | succ fuel ih =>
    intro rest p hcur hlen
    rcases hcur with ⟨rfl, rfl⟩ | ⟨c, s, heq, hne, rfl, rfl⟩
    · rfl
    · cases s with
      | nil => exact absurd rfl hne
      | node q v l r =>
        have hq : q ≠ NULL := hs.ptr_ne_null (by rw [← heq, mem_ptrs_plug]; simp [ptrs])
        rw [root_node, RtTable.firstHead, if_neg hq, Heap.deref_ok (hs.get_node heq), exec_bind_ok]
        simp only [cell_rtNode]
        by_cases h0 : v.rth = NULL
        · obtain ⟨p', hp', hcur'⟩ := hs.preorderNext_spec heq
          rw [if_neg (by simp [h0]), hp', exec_bind_ok, ih _ p' hcur' ?_]
          · simp [firstRth, pre, h0]
          · simp only [pre, List.cons_append, List.length_cons] at hlen
            omega
        · simp [firstRth, pre, h0]

theorem passes_of_lt (heads : Ptr → RtHead) {n : Nat} (v : RtVal) (h : (view heads).len v < n) :
    passes n v = true := by
  simp only [passes, Bool.or_eq_true, decide_eq_true_eq]
  exact .inl h

/-- Where the search for a head starts: at the landing node when it extends the query. Otherwise it
starts at the cut, except for queries that lead astray, which start at a smaller entry. -/
theorem nextStart_cases (hs : Shape rtt t) (hnil : t ≠ .nil) (addr : Addr) {n : Nat}
    (hn : n ≤ 65528) :
    ∃ f c near his, Landing (view rtt.heads) (bitAt addr) (passes n) t f c near ∧
      f.val.rth ≠ NULL ∧ (rtt.heads f.val.rth).rdxRthAddr = some his ∧
      ((n < f.val.bit ∧ (∀ i < n, bitAt addr i = bitAt his i) ∧
          RtTable.nextStart rtt addr n = .ok f.ptr) ∨
        ¬ (n < f.val.bit ∧ ∀ i < n, bitAt addr i = bitAt his i) ∧
          ∃ p rest, RtTable.nextStart rtt addr n = .ok p ∧ Cursor t rest p ∧
            (¬ Trie.Astray (view rtt.heads) t (firstBits (bitAt addr) n) ∧
                CutsAt (view rtt.heads) t (firstBits (bitAt addr) n) rest ∨
              Trie.Astray (view rtt.heads) t (firstBits (bitAt addr) n) ∧
                ∃ e es, (e.1 < firstBits (bitAt addr) n ∧ ¬ e.1 <+: firstBits (bitAt addr) n) ∧
                  entriesOf (view rtt.heads) rest = e :: es)) := by
  obtain ⟨f, c, near, hl, hdesc⟩ := hs.descend_spec (RtTable.shorterOrGlue n) (passes n) hnil
    (fun _ _ _ _ => rfl) addr
  have ht := hs.wf
  have hgo := passes_of_lt rtt.heads (n := n)
  have hlinked := hs.linked_frame hl.plug_eq (List.mem_cons_self (a := f))
  have hlen := hs.length_path hl.plug_eq
  rw [List.length_cons] at hlen
  obtain ⟨m, hm, -, hbit, -, -, -, -, hrth⟩ := hs.deref_frame hl.plug_eq
  have h0 : f.val.rth ≠ NULL := fun h0 =>
    hl.key_ne_none ht (fun _ => by simp [passes, h0]) ((key_view_eq_none hlinked).mpr h0)
  obtain ⟨his, hhis⟩ := hlinked.addr h0
  have hkey : (view rtt.heads).key f.val =
      some (firstBits (bitAt his) ((view rtt.heads).len f.val)) := key_view_of_addr h0 hhis
  obtain ⟨d, hd, hagree, hdiff⟩ := dbitOf_ends addr his (min f.val.bit n) (by omega)
  have hstart : RtTable.nextStart rtt addr n =
      if min f.val.bit n ≤ d then
        if f.val.bit ≤ n then RtTable.preorderNext rtt.nodes f.ptr else .ok f.ptr
      else if bitAt addr d then
        RtTable.climbSmaller rtt.nodes d (rtt.nodes.bound + 1) f.ptr
      else RtTable.climbGreater rtt.nodes d (rtt.nodes.bound + 1) f.ptr := by
    rw [RtTable.nextStart, hdesc, exec_bind_ok, hm, exec_bind_ok, hbit, hrth,
      rdxAddr_ok h0 hhis, exec_bind_ok, hd, exec_bind_ok, bitTest_rnbit]
    rfl
  refine ⟨f, c, near, his, hl, h0, hhis, ?_⟩
  rw [hstart]
  by_cases hmin : min f.val.bit n ≤ d
  · rw [if_pos hmin]
    have hsame : ∀ i < min f.val.bit n, bitAt addr i = bitAt his i :=
      fun i hi => hagree i (by omega)
    by_cases hle : f.val.bit ≤ n
    · rw [if_pos hle]
      have hsame : ∀ i < (view rtt.heads).len f.val, bitAt addr i = bitAt his i :=
        fun i hi => hsame i (by simp only [len_view] at hi; omega)
      obtain ⟨l, r, hjoin⟩ := exists_join_eq f.side f.ptr f.val near f.sib
      have hplug := hl.plug_eq
      rw [plug_cons, hjoin] at hplug
      obtain ⟨p, hp, hcur⟩ := hs.preorderNext_spec hplug
      refine .inr ⟨fun hlong => by omega, p, _, hp, hcur, ?_⟩
      have hrest : l.pre ++ r.pre ++ Ctx.preAfter c =
          (join f.side f.ptr f.val near f.sib).pre.tail ++ Ctx.preAfter c := by
        rw [hjoin]
        rfl
      rw [hrest]
      by_cases hbad : f.val.bit < n ∧ bitAt addr f.val.bit = true ∧ f.sib ≠ .nil
      · rw [← firstBits_eq_iff.mpr hsame] at hkey
        exact .inr (hl.astray ht hgo hkey hbad.1 hbad.2.1 hbad.2.2)
      · refine .inl ⟨fun hast => hbad (hl.of_astray ht hgo hast).2,
          hl.cutsAt_shorter ht hkey hle hsame (hgo f.val) fun hlt hq => ?_⟩
        by_contra hsib
        exact hbad ⟨hlt, hq, hsib⟩
    · rw [if_neg hle]
      exact .inl ⟨by omega, fun i hi => hsame i (by omega), rfl⟩
  · rw [if_neg hmin]
    have hoff : ¬ (n < f.val.bit ∧ ∀ i < n, bitAt addr i = bitAt his i) := fun hlong =>
      hdiff (by omega) (hlong.2 d (by omega))
    refine .inr ⟨hoff, ?_⟩
    have hne := hdiff (by omega)
    have hast : ¬ Trie.Astray (view rtt.heads) t (firstBits (bitAt addr) n) := fun hast => by
      have hq := (hl.of_astray ht hgo hast).1
      rw [hkey, Option.some_inj, firstBits_eq_iff] at hq
      exact hne (hq d (by simp only [len_view]; omega)).symm
    obtain ⟨a, g, b, k, hcut⟩ := hl.cut ht hkey (d := d) (by simp only [len_view]; omega) hagree
    have hdg : d < g.val.bit := by
      refine lt_of_le_of_ne hcut.le fun heq => ?_
      obtain ⟨-, rfl, -⟩ := hl.cut_eq_landing hkey (n := n) (by omega) (fun _ => hne) hcut heq.symm
      omega
    -- the climb starts at the landing node and passes what lies between it and the cut
    obtain ⟨a', hc, hclimb, htop⟩ := hl.exists_climb ht hcut
    have habove : ∀ x ∈ a', d < x.val.bit := by
      intro x hx
      exact lt_of_lt_of_le hdg (hclimb x hx)
    have hplug := hl.plug_eq
    rw [plug_cons, hc] at hplug
    have hlen' : (a' ++ b).length < rtt.nodes.bound + 1 := by
      rw [← hc]
      omega
    cases hq : bitAt addr d with
    | true =>
      have hh : bitAt his d = false := by simpa [hq] using hne.symm
      rw [if_pos rfl]
      have hok : ∀ x ∈ a' ++ b, (x.val.bit != d) = true := by
        intro x hx
        rw [bne_iff_ne]
        rcases List.mem_append.mp hx with hx | hx
        · exact (habove x hx).ne'
        · exact (hcut.above x hx).ne
      have hstop : ∀ x ∈ b, decide (d < x.val.bit) = false := by
        intro x hx
        have := hcut.above x hx
        simp only [len_view] at this
        simp only [decide_eq_false_iff_not]
        omega
      obtain ⟨p, hp, hcur⟩ := hs.climbBranch_spec (fun n => n.rtnBit != d)
        (fun n => d < n.rtnBit) (fun v => v.bit != d) (fun v => d < v.bit)
        (fun s _ _ _ _ => by cases s <;> rfl) (fun s _ _ _ _ => by cases s <;> rfl) a' b _ _ hplug
        (join_ne_nil _ _ _ _ _) hlen' hok (fun x hx => by simpa using habove x hx) hstop
      rw [root_join] at hp
      exact ⟨p, _, hp, hcur, .inl ⟨hast, hl.cutsAt_smaller hcut (by omega) hdg hagree hq hh⟩⟩
    | false =>
      have hh : bitAt his d = true := by simpa [hq] using hne.symm
      rw [if_neg (by simp)]
      have hclimb := hs.climbGreater_spec (d := d) a' b _ _ hplug (join_ne_nil _ _ _ _ _)
        hlen' habove hcut.above
      rw [htop, root_join, root_join] at hclimb
      refine ⟨g.ptr, _, hclimb, .inr ⟨b, _, ?_, join_ne_nil _ _ _ _ _, (root_join ..).symm, rfl⟩,
        .inl ⟨hast, hl.cutsAt_greater hcut (by omega) hdg hagree hq hh⟩⟩
      rw [← htop, ← plug_append, hplug]

end Shape

/-- In a table with one head of 65535 bits the comparison with a query of 65530 bits never ends. -/
theorem nextStart_wraps {rtt : RtTable} (hroot : rtt.rttRoot = 1)
    (hget : rtt.nodes.get 1 = some { RtNode.new 65535 with rtnRth := 1 })
    (haddr : (rtt.heads 1).rdxRthAddr = some fun _ => 0) :
    rtt.nextStart (fun _ => 0) 65530 = .error .diverges := by
  have hnode : rtt.nodes.deref rtt.rttRoot = .ok { RtNode.new 65535 with rtnRth := 1 } := by
    rw [hroot]
    exact Heap.deref_ok hget
  have hwrap : dbitOf (fun _ => 0) (fun _ => 0) (min 65535 65530) = .error .diverges :=
    dbitLoop_wraps _ _ _ (by decide) (fun _ _ => rfl) _ 0 rfl (by decide)
  have hstop : RtTable.descend rtt.nodes (RtTable.shorterOrGlue 65530) (fun _ => 0)
      (rtt.nodes.bound + 1) rtt.rttRoot = .ok rtt.rttRoot := by
    rw [RtTable.descend, hnode]
    rfl
  rw [RtTable.nextStart, hstop, exec_bind_ok, hnode, exec_bind_ok, rdxAddr_ok (by decide) haddr,
    exec_bind_ok]
  simp only [RtNode.new, hwrap, exec_bind_error]

/-- `r` answers for the successor of `K`: it is the head of the least prefix greater than `K`, or
`NULL` when there is none. -/
def PrefixMap.IsNext (M : PrefixMap) (K : List Bool) (r : Ptr) : Prop :=
  (∃ K', M K' = some r ∧ K < K' ∧ ∀ K'' rth, M K'' = some rth → K < K'' → K' ≤ K'') ∨
    (r = NULL ∧ ∀ K' rth, M K' = some rth → ¬ K < K')

/-- A stored prefix of `K` is left by `K` to the right, where nothing is stored, while something
is stored to the left. -/
def PrefixMap.Astray (M : PrefixMap) (K : List Bool) : Prop :=
  ∃ k, M k ≠ none ∧ k ++ [true] <+: K ∧ (∀ K', M K' ≠ none → ¬ k ++ [true] <+: K') ∧
    ∃ K', M K' ≠ none ∧ k ++ [false] <+: K'

namespace Refines

variable {rtt : RtTable} {t : Tree RtVal} {M : PrefixMap}

theorem ne_none_iff (h : Refines rtt t M) {K : List Bool} :
    M K ≠ none ↔ ∃ x, (K, x) ∈ entries (view rtt.heads) t := by
  rw [Option.ne_none_iff_exists']
  constructor
  · rintro ⟨rth, hK⟩
    obtain ⟨x, hx, -⟩ := (h.stored K rth).mp hK
    exact ⟨x, hx⟩
  · rintro ⟨x, hx⟩
    exact ⟨x.2.rth, (h.stored K _).mpr ⟨x, hx, rfl⟩⟩

theorem astray_iff (h : Refines rtt t M) (K : List Bool) :
    M.Astray K ↔ Trie.Astray (view rtt.heads) t K := by
  simp only [PrefixMap.Astray, Trie.Astray, h.ne_none_iff, Prod.forall, Prod.exists]
  constructor
  · rintro ⟨k, ⟨p, v, hx⟩, hK, hright, K', ⟨p', v', hx'⟩, hleft⟩
    exact ⟨k, p, v, hx, hK, fun K'' p'' v'' hx'' => hright K'' ⟨p'', v'', hx''⟩, K', p', v', hx',
      hleft⟩
  · rintro ⟨k, p, v, hx, hK, hright, K', p', v', hx', hleft⟩
    refine ⟨k, ⟨p, v, hx⟩, hK, ?_, K', ⟨p', v', hx'⟩, hleft⟩
    rintro K'' ⟨p'', v'', hx''⟩
    exact hright K'' p'' v'' hx''

/-- The first head after the cut is the successor. -/
theorem isNext_of_cutsAt (h : Refines rtt t M) {K : List Bool} {rest : List (Ptr × RtVal)}
    (hcut : CutsAt (view rtt.heads) t K rest) : M.IsNext K (firstRth rest) := by
  obtain ⟨P, hpre, hle, hlt⟩ := hcut
  have hent : entries (view rtt.heads) t =
      entriesOf (view rtt.heads) P ++ entriesOf (view rtt.heads) rest := by
    rw [← entriesOf_pre, hpre, entriesOf_append]
  have hlinked : ∀ x ∈ rest, Linked rtt.heads x := fun x hx =>
    h.shape.linked x (by rw [hpre]; simp [hx])
  have hgreater : ∀ K' rth, M K' = some rth → K < K' →
      ∃ x, (K', x) ∈ entriesOf (view rtt.heads) rest := by
    intro K' rth hK' hKK'
    obtain ⟨x, hx, -⟩ := (h.stored K' rth).mp hK'
    rw [hent, List.mem_append] at hx
    rcases hx with hx | hx
    · exact absurd (hle _ hx) (not_le_of_gt hKK')
    · exact ⟨x, hx⟩
  rw [firstRth_eq hlinked]
  cases hes : entriesOf (view rtt.heads) rest with
  | nil =>
    refine .inr ⟨rfl, fun K' rth hK' hKK' => ?_⟩
    obtain ⟨x, hx⟩ := hgreater K' rth hK' hKK'
    simp [hes] at hx
  | cons e es =>
    refine .inl ⟨e.1, ?_, hlt e (by simp [hes]), fun K' rth hK' hKK' => ?_⟩
    · exact (h.stored _ _).mpr ⟨e.2, by simp [hent, hes], rfl⟩
    · obtain ⟨x, hx⟩ := hgreater K' rth hK' hKK'
      have hsorted := h.shape.wf.sorted
      rw [hent, hes] at hsorted
      rw [hes] at hx
      rcases List.mem_cons.mp hx with rfl | hx
      · exact le_rfl
      · exact (List.rel_of_pairwise_cons (List.pairwise_append.mp hsorted).2.1 hx).le

/-- The head of a smaller entry is not the successor. -/
theorem not_isNext_of_lt (h : Refines rtt t M) {K : List Bool} {rest : List (Ptr × RtVal)}
    {e : List Bool × Ptr × RtVal} {es : List (List Bool × Ptr × RtVal)} (hlt : e.1 < K)
    (hsub : ∀ x ∈ rest, x ∈ t.pre) (hes : entriesOf (view rtt.heads) rest = e :: es) :
    ¬ M.IsNext K (firstRth rest) := by
  have he : e ∈ entries (view rtt.heads) t := entriesOf_subset hsub e (by simp [hes])
  have hM : M e.1 = some e.2.2.rth := (h.stored _ _).mpr ⟨e.2, he, rfl⟩
  rw [firstRth_eq fun x hx => h.shape.linked x (hsub x hx), hes, List.head?_cons, Option.elim_some]
  rintro (⟨K', hK', hlt', -⟩ | ⟨h0, -⟩)
  · rw [h.head_inj hK' hM] at hlt'
    exact absurd (hlt'.trans hlt) (lt_irrefl _)
  · exact h.ne_null hM h0

/-- For queries with zeros beyond, the search always starts at the cut, or at a smaller entry. -/
theorem nextStart_spec (h : Refines rtt t M) (hnil : t ≠ .nil) (addr : Addr) {n : Nat}
    (hn : n ≤ 65528) (hzero : ∀ i, n ≤ i → i < rtt.rttMaxaddrlen → bitAt addr i = false) :
    ∃ p rest, RtTable.nextStart rtt addr n = .ok p ∧ Cursor t rest p ∧
      (¬ Trie.Astray (view rtt.heads) t (firstBits (bitAt addr) n) ∧
          CutsAt (view rtt.heads) t (firstBits (bitAt addr) n) rest ∨
        Trie.Astray (view rtt.heads) t (firstBits (bitAt addr) n) ∧
          ∃ e es, e.1 < firstBits (bitAt addr) n ∧
            entriesOf (view rtt.heads) rest = e :: es) := by
  obtain ⟨f, c, near, his, hl, h0, hhis, hcases⟩ := h.shape.nextStart_cases hnil addr hn
  rcases hcases with ⟨hlong, hsame, hstart⟩ | ⟨-, p, rest, hp, hcur, hrest⟩
  · refine ⟨f.ptr, _, hstart, .inr ⟨c, _, hl.plug_eq, join_ne_nil _ _ _ _ _,
      (root_join ..).symm, rfl⟩, .inl ⟨?_, ?_⟩⟩
    · intro hast
      have := (hl.of_astray h.shape.wf (Shape.passes_of_lt rtt.heads) hast).2.1
      simp only [len_view] at this
      omega
    · have hshort := h.short (f.ptr, f.val)
        (hl.plug_eq ▸ Shape.mem_pre_of_frame List.mem_cons_self)
      refine hl.cutsAt_longer h.shape.wf (key_view_of_addr h0 hhis) hlong hsame ?_
        fun i hi hif => hzero i hi ?_
      · intro v hv
        simp only [Shape.passes, Bool.or_eq_true, decide_eq_true_eq] at hv
        rcases hv with hv | hv
        · exact .inl hv
        · exact .inr (by simp [view, hv])
      · simp only [len_view] at hif hshort
        omega
  · refine ⟨p, rest, hp, hcur, hrest.imp_right ?_⟩
    rintro ⟨hast, e, es, ⟨hlt, -⟩, hes⟩
    exact ⟨hast, e, es, hlt, hes⟩

/-- The routine returns the first head after the cursor it starts with. -/
theorem getnext_eq (h : Refines rtt t M) (hnil : t ≠ .nil) {addr : Addr} {n : Nat} {p : Ptr}
    {rest : List (Ptr × RtVal)} (hp : RtTable.nextStart rtt addr n = .ok p)
    (hcur : Cursor t rest p) :
    RtTable.stdRadixGetnext rtt (some addr) n = .ok (firstRth rest) := by
  have hq : rtt.queryAddr addr = addr := by rw [RtTable.queryAddr, h.plain.2.1]
  have hlen : rest.length < rtt.nodes.bound + 1 := by
    have hsub := hcur.sublist.length_le
    have hsize := h.shape.holds.size_le
    rw [← length_ptrs, ← map_fst_pre, List.length_map] at hsize
    omega
  unfold RtTable.stdRadixGetnext
  simp only [hq, h.plain.1, Bool.false_and, Bool.false_eq_true, if_false]
  rw [if_neg (h.shape.root_eq_null.not.mpr hnil)]
  simp only [hp, exec_bind_ok]
  exact h.shape.firstHead_spec _ rest p hcur hlen

/-- `std_radix_getnext` answers for the successor unless the query leads astray. -/
theorem getnext_spec (h : Refines rtt t M) (addr : Addr) {n : Nat} (hn : n ≤ 65528)
    (hzero : ∀ i, n ≤ i → i < rtt.rttMaxaddrlen → bitAt addr i = false) :
    ∃ r, RtTable.stdRadixGetnext rtt (some addr) n = .ok r ∧
      (M.IsNext (firstBits (bitAt addr) n) r ↔ ¬ M.Astray (firstBits (bitAt addr) n)) := by
  by_cases hnil : t = .nil
  · subst hnil
    unfold RtTable.stdRadixGetnext
    simp only [h.plain.1, Bool.false_and, Bool.false_eq_true, if_false]
    rw [if_pos (h.shape.root_eq_null.mpr rfl)]
    refine ⟨NULL, rfl, iff_of_true (.inr ⟨rfl, fun K' rth hK' => ?_⟩) ?_⟩
    · rw [h.empty_map] at hK'
      cases hK'
    · rintro ⟨k, hk, -⟩
      exact hk (h.empty_map k)
  obtain ⟨p, rest, hp, hcur, hrest⟩ := h.nextStart_spec hnil addr hn hzero
  refine ⟨firstRth rest, h.getnext_eq hnil hp hcur, ?_⟩
  rw [h.astray_iff]
  rcases hrest with ⟨hast, hcut⟩ | ⟨hast, e, es, hlt, hes⟩
  · exact iff_of_true (h.isNext_of_cutsAt hcut) hast
  · exact iff_of_false
      (h.not_isNext_of_lt hlt (fun x hx => hcur.sublist.subset hx) hes) (by simpa using hast)

end Refines

/-- `std_radix_getnext` answers for the strict successor of every query of at most 65528 bits, with
zeros beyond, if and only if no stored prefix leads the query astray. -/
theorem getnext_successor {maxaddrlen : Nat} {rtt : RtTable} {M : PrefixMap}
    (h : Reached maxaddrlen rtt M) (dest : Addr) (bitlen : Nat) (hdbit : bitlen ≤ 65528)
    (hzero : ∀ i, bitlen ≤ i → i < maxaddrlen → bitAt dest i = false) :
    ∃ r, RtTable.stdRadixGetnext rtt (some dest) bitlen = .ok r ∧
      (M.IsNext (firstBits (bitAt dest) bitlen) r ↔
        ¬ M.Astray (firstBits (bitAt dest) bitlen)) := by
  obtain ⟨t, ht, hmax⟩ := h.refines
  exact ht.getnext_spec dest hdbit (hmax ▸ hzero)

/-- 10/8 and, inside its left half, 10.1/16. -/
def leftHalfOps : List TableOp := [
  .insert .above true 1 (fun i => if i = 0 then 10 else 0) 8,
  .insert .above true 3 (fun i => if i = 0 then 10 else 1) 16]

/-- 10.128.0.0, an address in the right half of 10/8. -/
def rightHalf : Addr := fun i => if i = 0 then 10 else if i = 1 then 128 else 0

theorem leftHalfOps_allowed : TableOp.AllAllowed 32 PrefixMap.empty leftHalfOps :=
  TableOp.allAllowed_inserts [(1, fun i => if i = 0 then 10 else 0, 8),
    (3, fun i => if i = 0 then 10 else 1, 16)] (by decide) (by decide) (by simp [PrefixMap.empty])

/-- Asked for the successor of 10.128/16, the table of `leftHalfOps` answers with the head of
10.1/16, which is smaller; there is no successor. -/
theorem getnext_goes_back : ∃ rtt, Reached 32 rtt (TableOp.specAll PrefixMap.empty leftHalfOps).2 ∧
    (∀ i, 16 ≤ i → i < 32 → bitAt rightHalf i = false) ∧
    RtTable.stdRadixGetnext rtt (some rightHalf) 16 = .ok 3 ∧
    (TableOp.specAll PrefixMap.empty leftHalfOps).2
      (firstBits (bitAt fun i => if i = 0 then 10 else 1) 16) = some 3 ∧
    firstBits (bitAt fun i => if i = 0 then 10 else 1) 16 < firstBits (bitAt rightHalf) 16 ∧
    ¬ (TableOp.specAll PrefixMap.empty leftHalfOps).2.IsNext (firstBits (bitAt rightHalf) 16) 3 := by
  obtain ⟨rtt, hrun, h⟩ := (Reached.create).runAll
    (by decide) leftHalfOps_allowed
  have hget : RtTable.stdRadixGetnext rtt (some rightHalf) 16 = .ok 3 := by
    have hall : (TableOp.runAll (RtTable.stdRadixCreate 32 true fun _ => default) leftHalfOps >>=
        fun r => RtTable.stdRadixGetnext r.2 (some rightHalf) 16) = .ok 3 := by decide +kernel
    rwa [hrun] at hall
  have hM : (TableOp.specAll PrefixMap.empty leftHalfOps).2
      (firstBits (bitAt fun i => if i = 0 then 10 else 1) 16) = some 3 := by decide +kernel
  have hlt : firstBits (bitAt fun i => if i = 0 then 10 else 1) 16 <
      firstBits (bitAt rightHalf) 16 := by decide +kernel
  refine ⟨rtt, h, by decide, hget, hM, hlt, ?_⟩
  obtain ⟨t, ht, -⟩ := h.refines
  rintro (⟨K', hK', hlt', -⟩ | ⟨h0, -⟩)
  · rw [ht.head_inj hK' hM] at hlt'
    exact absurd (hlt'.trans hlt) (lt_irrefl _)
  · cases h0

/-- Asked for the successor of 10.0/16, the same table answers with the head of 10.1/16. -/
theorem getnext_successor_sample : ∃ rtt r,
    RtTable.stdRadixGetnext rtt (some fun i => if i = 0 then 10 else 0) 16 = .ok r ∧
      (TableOp.specAll PrefixMap.empty leftHalfOps).2.IsNext
        (firstBits (bitAt fun i => if i = 0 then 10 else 0) 16) r := by
  obtain ⟨rtt, h⟩ := exists_reached (by decide)
    (@Reached.create 32 true fun _ => default) leftHalfOps_allowed
  obtain ⟨r, hr, hnext⟩ := getnext_successor h (fun i => if i = 0 then 10 else 0) 16 (by decide)
    (by decide)
  refine ⟨rtt, r, hr, hnext.mpr ?_⟩
  rintro ⟨k, hk, hpre, hright, K', hK', hleft⟩
  have hkq : k = firstBits (bitAt fun i => if i = 0 then 10 else 0) k.length :=
    eq_firstBits_of_isPrefix ((List.prefix_append _ _).trans hpre)
  have hbit := bit_of_snoc_isPrefix hpre
  have hlen := hpre.length_le
  rw [List.length_append, List.length_singleton, length_firstBits] at hlen
  rw [hkq] at hk
  have hall : ∀ n < 16, (TableOp.specAll PrefixMap.empty leftHalfOps).2
      (firstBits (bitAt fun i => if i = 0 then 10 else 0) n) ≠ none →
      bitAt (fun i => if i = 0 then 10 else 0) n = false := by decide +kernel
  rw [hall k.length (by omega) hk] at hbit
  cases hbit

end OpxCommonUtils.Radix
