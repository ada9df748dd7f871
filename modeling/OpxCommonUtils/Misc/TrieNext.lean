import OpxCommonUtils.Misc.TriePath

/-!
# The successor in a trie

The preorder of a trie falls into the entries up to a key and the greater ones (`CutsAt`). Where
the cut is depends on how the search for the key ends: at a node that is longer than the key or
not, on a branch that is smaller or greater.
-/

namespace OpxCommonUtils.Trie

open Tree

variable {β : Type} {T : View β}

/-- The entries among cells. -/
def entriesOf (T : View β) (cells : List (Ptr × β)) : List (List Bool × Ptr × β) :=
  cells.filterMap fun x => (T.key x.2).map fun k => (k, x)

@[simp] theorem entriesOf_nil : entriesOf T ([] : List (Ptr × β)) = [] := rfl

@[simp] theorem entriesOf_append (xs ys : List (Ptr × β)) :
    entriesOf T (xs ++ ys) = entriesOf T xs ++ entriesOf T ys := List.filterMap_append ..

theorem entriesOf_subset {xs ys : List (Ptr × β)} (h : ∀ x ∈ xs, x ∈ ys) :
    ∀ e ∈ entriesOf T xs, e ∈ entriesOf T ys := by
  intro e he
  obtain ⟨x, hx, hkey⟩ := List.mem_filterMap.mp he
  exact List.mem_filterMap.mpr ⟨x, h x hx, hkey⟩

@[simp] theorem entriesOf_pre (t : Tree β) : entriesOf T t.pre = entries T t := rfl

@[simp] theorem entriesOf_preBefore (c : List (Frame β)) :
    entriesOf T (Ctx.preBefore c) = before T c := rfl

@[simp] theorem entriesOf_preAfter (c : List (Frame β)) :
    entriesOf T (Ctx.preAfter c) = after T c := rfl

/-- The entries greater than `K` are those of the cells `rest`, with which the preorder ends. -/
def CutsAt (T : View β) (t : Tree β) (K : List Bool) (rest : List (Ptr × β)) : Prop :=
  ∃ P, t.pre = P ++ rest ∧ (∀ e ∈ entriesOf T P, e.1 ≤ K) ∧ ∀ e ∈ entriesOf T rest, K < e.1

/-- What comes before the hole is smaller than whatever extends the string of the hole. -/
theorem CtxWf.before_lt {k K : List Bool} {c : List (Frame β)} (hc : CtxWf T k c)
    (hk : k <+: K) : ∀ e ∈ before T c, e.1 < K := by
  induction hc generalizing K with
  | nil => simp
  | @cons k key f c _ h1 h2 h3 h4 h5 ih =>
    have hkey : key <+: K := (List.prefix_append _ _).trans hk
    intro e he
    rw [before_cons] at he
    simp only [List.mem_append, Option.mem_toList, Option.map_eq_some_iff] at he
    rcases he with (he | ⟨k', hk', rfl⟩) | he
    · exact ih (h1.trans hkey) e he
    · rw [h3 _ hk']
      refine lt_of_isPrefix hkey ?_
      have := hk.length_le
      rw [List.length_append, List.length_singleton] at this
      exact this
    · cases hs : f.side with
      | left => simp [hs] at he
      | right =>
        rw [hs] at he hk h5
        exact lt_of_branch (h5.key_isPrefix he).1 hk

/-- What comes after the hole is greater than whatever extends the string of the hole. -/
theorem CtxWf.lt_after {k K : List Bool} {c : List (Frame β)} (hc : CtxWf T k c)
    (hk : k <+: K) : ∀ e ∈ after T c, K < e.1 := by
  induction hc generalizing K with
  | nil => simp
  | @cons k key f c _ h1 h2 h3 h4 h5 ih =>
    intro e he
    rw [after_cons] at he
    rcases List.mem_append.mp he with he | he
    · cases hs : f.side with
      | left =>
        rw [hs] at he hk h5
        exact lt_of_branch hk (h5.key_isPrefix he).1
      | right => simp [hs] at he
    · exact ih (h1.trans ((List.prefix_append _ _).trans hk)) e he

/-- Entries that extend the string of the hole are in the hole. -/
theorem CtxWf.mem_hole {k : List Bool} {c : List (Frame β)} {s : Tree β}
    {e : List Bool × Ptr × β} (hc : CtxWf T k c) (hk : k <+: e.1)
    (he : e ∈ entries T (Tree.plug c s)) : e ∈ entries T s := by
  rw [entries_plug, List.mem_append, List.mem_append] at he
  rcases he with (he | he) | he
  · exact absurd (hc.before_lt hk e he) (lt_irrefl _)
  · exact he
  · exact absurd (hc.lt_after hk e he) (lt_irrefl _)

/-- Nodes without an entry that the path leaves to the left add nothing before the hole. -/
theorem before_glue {a b : List (Frame β)}
    (ha : ∀ x ∈ a, T.key x.val = none ∧ x.side = .left) : before T (a ++ b) = before T b := by
  induction a with
  | nil => rfl
  | cons x a ih =>
    obtain ⟨hkey, hside⟩ := ha x (by simp)
    rw [List.cons_append, before_cons, hkey, hside, ih (fun y hy => ha y (by simp [hy]))]
    simp

namespace Landing

variable {q h : Nat → Bool} {go : β → Bool} {t near : Tree β} {f : Frame β} {c : List (Frame β)}
  {n : Nat}

/-- The preorder at the landing node. -/
theorem pre_eq (hl : Landing T q go t f c near) : t.pre =
    Ctx.preBefore c ++ (join f.side f.ptr f.val near f.sib).pre ++ Ctx.preAfter c := by
  rw [← hl.plug_eq, plug_cons, pre_plug]

/-- The branch of the landing node is smaller than the query: the greater entries come after it. -/
theorem cutsAt_smaller (hl : Landing T q go t f c near) {d : Nat} {a b : List (Frame β)}
    {g : Frame β} {k : List Bool} (hcut : Cut T q h d (f :: c) near a g b k) (hdn : d < n)
    (hdg : d < T.len g.val) (hagree : ∀ i < d, q i = h i) (hq : q d = true) (hh : h d = false) :
    CutsAt T t (firstBits q n) (Ctx.preAfter b) := by
  have hK : firstBits q d ++ [true] <+: firstBits q n := by
    rw [← hq, ← firstBits_succ]
    exact firstBits_isPrefix q hdn
  have hk : k <+: firstBits q n := hcut.hole.trans (firstBits_isPrefix q hdn.le)
  have hplug := hl.plug_eq
  rw [hcut.path_eq, plug_append, plug_cons] at hplug
  refine ⟨Ctx.preBefore b ++ (join g.side g.ptr g.val (plug a near) g.sib).pre, ?_, ?_, ?_⟩
  · rw [← hplug, pre_plug]
  · intro e he
    simp only [entriesOf_append, entriesOf_preBefore, entriesOf_pre, List.mem_append] at he
    rcases he with he | he
    · exact (hcut.ctx.before_lt hk e he).le
    · refine (lt_of_branch (k := firstBits q d) ?_ hK).le
      rw [firstBits_eq_iff.mpr hagree, ← hh, ← firstBits_succ]
      exact (firstBits_isPrefix h hdg).trans (hcut.wf.key_isPrefix he).1
  · exact hcut.ctx.lt_after hk

/-- The branch of the landing node is greater than the query: the greater entries begin at its
top. -/
theorem cutsAt_greater (hl : Landing T q go t f c near) {d : Nat} {a b : List (Frame β)}
    {g : Frame β} {k : List Bool} (hcut : Cut T q h d (f :: c) near a g b k) (hdn : d < n)
    (hdg : d < T.len g.val) (hagree : ∀ i < d, q i = h i) (hq : q d = false) (hh : h d = true) :
    CutsAt T t (firstBits q n)
      ((join g.side g.ptr g.val (plug a near) g.sib).pre ++ Ctx.preAfter b) := by
  have hK : firstBits q d ++ [false] <+: firstBits q n := by
    rw [← hq, ← firstBits_succ]
    exact firstBits_isPrefix q hdn
  have hk : k <+: firstBits q n := hcut.hole.trans (firstBits_isPrefix q hdn.le)
  have hplug := hl.plug_eq
  rw [hcut.path_eq, plug_append, plug_cons] at hplug
  refine ⟨Ctx.preBefore b, ?_, fun e he => (hcut.ctx.before_lt hk e he).le, ?_⟩
  · rw [← hplug, pre_plug, List.append_assoc]
  · intro e he
    simp only [entriesOf_append, entriesOf_preAfter, entriesOf_pre, List.mem_append] at he
    rcases he with he | he
    · refine lt_of_branch (k := firstBits q d) hK ?_
      rw [firstBits_eq_iff.mpr hagree, ← hh, ← firstBits_succ]
      exact (firstBits_isPrefix h hdg).trans (hcut.wf.key_isPrefix he).1
    · exact hcut.ctx.lt_after hk e he

/-- The landing node extends the query: the greater entries begin at the landing node, when the
query goes on with zeros and the search passed only nodes without an entry beyond it. -/
theorem cutsAt_longer (hl : Landing T q go t f c near) (ht : Wf T [] t)
    (hkey : T.key f.val = some (firstBits h (T.len f.val))) (hn : n < T.len f.val)
    (hagree : ∀ i < n, q i = h i) (hgo : ∀ v, go v = true → T.len v < n ∨ T.key v = none)
    (hzero : ∀ i, n ≤ i → i < T.len f.val → q i = false) :
    CutsAt T t (firstBits q n)
      ((join f.side f.ptr f.val near f.sib).pre ++ Ctx.preAfter c) := by
  obtain ⟨a, g, b, k, hcut⟩ := hl.cut ht hkey hn.le hagree
  obtain ⟨kf, hcf, hkf, hwf⟩ := hl.below ht hkey (a := []) (g := f) (b := c) rfl
  -- above the cut are the shorter nodes, between it and the landing node glue to the left
  obtain ⟨a', rfl, hglue⟩ : ∃ a', c = a' ++ b ∧ ∀ x ∈ a', T.key x.val = none ∧ x.side = .left := by
    have hpath := hcut.path_eq
    obtain ⟨_, hctx, -⟩ := hl.split ht
    have hsorted := hctx.len_sorted
    have hside : ∀ x ∈ f :: c, x ∈ c → n ≤ T.len x.val → T.key x.val = none ∧ x.side = .left := by
      intro x hx hxc hlen
      have hlt := List.rel_of_pairwise_cons hsorted hxc
      refine ⟨(hgo _ (hl.passed x hxc)).resolve_left (by omega), ?_⟩
      have hbit := hl.onPath x hx
      rw [hzero _ hlen hlt] at hbit
      cases hs : x.side
      · rfl
      · rw [hs] at hbit
        cases hbit
    cases a with
    | nil =>
      obtain ⟨rfl, rfl⟩ := List.cons.inj hpath
      exact ⟨[], rfl, by simp⟩
    | cons x a =>
      obtain ⟨rfl, rfl⟩ := List.cons.inj hpath
      refine ⟨a ++ [g], by simp, fun y hy => ?_⟩
      have hyc : y ∈ a ++ g :: b := by
        rcases List.mem_append.mp hy with hy | hy
        · simp [hy]
        · simp_all
      refine hside y (by simp [hyc]) hyc ?_
      have hge := hcut.le
      rcases List.mem_append.mp hy with hy | hy
      · have := (List.pairwise_append.mp (List.pairwise_cons.mp hsorted).2).2.2 y hy g (by simp)
        omega
      · rw [List.mem_singleton.mp hy]
        exact hge
  refine ⟨Ctx.preBefore (a' ++ b), ?_, ?_, ?_⟩
  · rw [hl.pre_eq, List.append_assoc]
  · intro e he
    rw [entriesOf_preBefore, before_glue hglue] at he
    exact (hcut.ctx.before_lt hcut.hole e he).le
  · have hK : firstBits q n <+: firstBits h (T.len f.val) := by
      rw [firstBits_eq_iff.mpr hagree]
      exact firstBits_isPrefix h hn.le
    intro e he
    simp only [entriesOf_append, entriesOf_preAfter, entriesOf_pre, List.mem_append] at he
    rcases he with he | he
    · have hpre := (hwf.key_isPrefix he).1
      refine lt_of_isPrefix (hK.trans hpre) ?_
      have := hpre.length_le
      rw [length_firstBits] at this ⊢
      omega
    · exact (lt_of_isPrefix hK (by simpa using hn)).trans (hcf.lt_after hkf e he)

/-- The landing node is a prefix of the query: the greater entries are in its subtree and after
it, unless the query goes on to the right and the other branch is not empty. -/
theorem cutsAt_shorter (hl : Landing T q go t f c near) (ht : Wf T [] t)
    (hkey : T.key f.val = some (firstBits h (T.len f.val))) (hn : T.len f.val ≤ n)
    (hagree : ∀ i < T.len f.val, q i = h i) (hgo : T.len f.val < n → go f.val = true)
    (hgood : T.len f.val < n → q (T.len f.val) = true → f.sib = .nil) :
    CutsAt T t (firstBits q n) ((join f.side f.ptr f.val near f.sib).pre.tail ++
      Ctx.preAfter c) := by
  obtain ⟨kf, hcf, hkf, hwf⟩ := hl.below ht hkey (a := []) (g := f) (b := c) rfl
  rw [← firstBits_eq_iff.mpr hagree] at hkf hwf hkey
  have hfK : firstBits q (T.len f.val) <+: firstBits q n := firstBits_isPrefix q hn
  obtain ⟨key, h1, h2, -, -, h5, h6⟩ := wf_join.mp hwf
  obtain rfl : firstBits q (T.len f.val) = key := h1.eq_of_length (by simp [h2])
  refine ⟨Ctx.preBefore c ++ [(f.ptr, f.val)], ?_, ?_, ?_⟩
  · rw [hl.pre_eq]
    cases f.side <;> simp [join, pre]
  · intro e he
    simp only [entriesOf_append, entriesOf_preBefore, List.mem_append] at he
    rcases he with he | he
    · exact (hcf.before_lt (hkf.trans hfK) e he).le
    · simp only [entriesOf, List.filterMap_cons, hkey, Option.map_some, List.filterMap_nil,
        List.mem_singleton] at he
      subst he
      exact le_of_isPrefix hfK
  · intro e he
    simp only [entriesOf_append, entriesOf_preAfter, List.mem_append] at he
    rcases he with he | he
    · have hchild : e ∈ entries T near ∨ e ∈ entries T f.sib := by
        cases hs : f.side <;> rw [hs] at he <;>
          simp only [join, pre, List.tail_cons, entriesOf_append, entriesOf_pre,
            List.mem_append] at he
        · exact he
        · exact he.symm
      rcases Nat.lt_or_ge (T.len f.val) n with hlt | hge
      · have hnear := hl.stopped (hgo hlt)
        subst hnear
        rcases hchild with he | he
        · simp at he
        · have hbit := hl.onPath f (by simp)
          cases hq : q (T.len f.val) with
          | true =>
            rw [hgood hlt hq] at he
            simp at he
          | false =>
            rw [hbit, hq] at h6
            refine lt_of_branch ?_ (h6.key_isPrefix he).1
            rw [← hq, ← firstBits_succ]
            exact firstBits_isPrefix q hlt
      · have hsnoc : ∃ b, firstBits q (T.len f.val) ++ [b] <+: e.1 := by
          rcases hchild with he | he
          · exact ⟨_, (h5.key_isPrefix he).1⟩
          · exact ⟨_, (h6.key_isPrefix he).1⟩
        obtain ⟨b, hb⟩ := hsnoc
        obtain rfl : T.len f.val = n := le_antisymm hn hge
        refine lt_of_isPrefix ((List.prefix_append _ _).trans hb) ?_
        have := hb.length_le
        rw [List.length_append, List.length_singleton] at this
        exact this
    · exact hcf.lt_after (hkf.trans hfK) e he

end Landing

/-- What is below a cut are the entries that extend the bits up to it. -/
theorem Cut.mem_entries_iff {q h : Nat → Bool} {d : Nat} {path : List (Frame β)} {near t : Tree β}
    {a b : List (Frame β)} {g : Frame β} {k : List Bool} (hcut : Cut T q h d path near a g b k)
    (ht : plug path near = t) {e : List Bool × Ptr × β} (he : e ∈ entries T t) :
    firstBits q d <+: e.1 ↔ e ∈ entries T (join g.side g.ptr g.val (plug a near) g.sib) := by
  rw [← ht, hcut.path_eq, plug_append, plug_cons] at he
  constructor
  · intro hpre
    exact hcut.ctx.mem_hole (hcut.hole.trans hpre) he
  · intro hin
    exact hcut.shared.trans (hcut.wf.key_isPrefix hin).1

/-- When the landing node does not extend the query, no entry does. -/
theorem Landing.nothing_below {q h : Nat → Bool} {go : β → Bool} {t near : Tree β} {f : Frame β}
    {c : List (Frame β)} {n : Nat} (hl : Landing T q go t f c near) (ht : Wf T [] t)
    (hgo : ∀ v, T.len v < n → go v = true)
    (hkey : T.key f.val = some (firstBits h (T.len f.val)))
    (hno : ¬ (n ≤ T.len f.val ∧ ∀ i < n, q i = h i)) :
    ∀ e ∈ entries T t, ¬ firstBits q n <+: e.1 := by
  intro e he hpre
  by_cases hall : ∀ i < min (T.len f.val) n, q i = h i
  · -- the landing node is shorter than the query, which goes on where there is nothing
    have hlt : T.len f.val < n := by
      by_contra hge
      refine hno ⟨by omega, ?_⟩
      intro i hi
      exact hall i (by omega)
    have hsame : firstBits q (T.len f.val) = firstBits h (T.len f.val) := by
      rw [firstBits_eq_iff]
      intro i hi
      exact hall i (by omega)
    obtain ⟨k, hcf, hk, hwf⟩ := hl.below ht hkey (a := []) (g := f) (b := c) rfl
    rw [← hsame] at hk hwf
    have hnear := hl.stopped (hgo _ hlt)
    subst hnear
    have hpath : firstBits q (T.len f.val) ++ [f.side.bit] <+: e.1 := by
      rw [hl.onPath f (by simp), ← firstBits_succ]
      exact (firstBits_isPrefix q hlt).trans hpre
    rw [← hl.plug_eq, plug_cons] at he
    have hin := hcf.mem_hole (hk.trans ((List.prefix_append _ _).trans hpath)) he
    obtain ⟨key, h1, h2, h3, -, -, h6⟩ := wf_join.mp hwf
    obtain rfl : firstBits q (T.len f.val) = key := h1.eq_of_length (by simp [h2])
    have hcases : (∃ k, T.key f.val = some k ∧ e.1 = k) ∨ e ∈ entries T f.sib := by
      cases hs : f.side <;> rw [hs] at hin <;>
        simp only [join, entries_node, entries_nil, List.append_nil, List.mem_append,
          Option.mem_toList, Option.map_eq_some_iff] at hin <;>
        rcases hin with ⟨k, hkey', rfl⟩ | hin
      · exact .inl ⟨k, hkey', rfl⟩
      · exact .inr hin
      · exact .inl ⟨k, hkey', rfl⟩
      · exact .inr hin
    rcases hcases with ⟨k, hkey', hek⟩ | hsib
    · have hlen := hpath.length_le
      rw [hek, h3 k hkey', List.length_append, List.length_singleton] at hlen
      omega
    · exact not_both_snoc_isPrefix hpath (h6.key_isPrefix hsib).1
  · -- the query leaves the branch of the landing node at its first different bit
    push Not at hall
    obtain ⟨hd, hdiff⟩ := Nat.find_spec hall
    have hmin := fun i => Nat.find_min (m := i) hall
    generalize Nat.find hall = d at hd hdiff hmin
    have hagree : ∀ i < d, q i = h i := by
      intro i hi
      have hnot := hmin i hi
      push Not at hnot
      exact hnot (by omega)
    obtain ⟨a, g, b, k, hcut⟩ := hl.cut ht hkey (d := d) (by omega) hagree
    have hdg : d < T.len g.val := by
      refine lt_of_le_of_ne hcut.le ?_
      intro heq
      obtain ⟨-, rfl, -⟩ := hl.cut_eq_landing hkey (n := n) (by omega) (fun _ => hdiff) hcut
        heq.symm
      omega
    have hin := (hcut.mem_entries_iff hl.plug_eq he).mp
      ((firstBits_isPrefix q (by omega)).trans hpre)
    have hbits := (firstBits_isPrefix h hdg).trans (hcut.wf.key_isPrefix hin).1
    have hbits' := (firstBits_isPrefix q (show d + 1 ≤ n by omega)).trans hpre
    have heq := (List.prefix_of_prefix_length_le hbits hbits' (by simp)).eq_of_length (by simp)
    exact hdiff (firstBits_eq_iff.mp heq d (by omega)).symm

/-- An entry is a proper prefix of `K` which `K` leaves to the right, where no entry is, while
there are entries to the left. -/
def Astray (T : View β) (t : Tree β) (K : List Bool) : Prop :=
  ∃ k x, (k, x) ∈ entries T t ∧ k ++ [true] <+: K ∧ (∀ e ∈ entries T t, ¬ k ++ [true] <+: e.1) ∧
    ∃ e ∈ entries T t, k ++ [false] <+: e.1

namespace Landing

variable {q : Nat → Bool} {go : β → Bool} {t near : Tree β} {f : Frame β} {c : List (Frame β)}
  {n : Nat}

/-- The node that leads astray is the landing node. -/
theorem of_astray (hl : Landing T q go t f c near) (ht : Wf T [] t)
    (hgo : ∀ v, T.len v < n → go v = true) (hast : Astray T t (firstBits q n)) :
    T.key f.val = some (firstBits q (T.len f.val)) ∧ T.len f.val < n ∧
      q (T.len f.val) = true ∧ f.sib ≠ .nil := by
  obtain ⟨k, x, hx, hK, hright, e, he, hleft⟩ := hast
  have hkq : k = firstBits q k.length :=
    eq_firstBits_of_isPrefix ((List.prefix_append _ _).trans hK)
  have hbit : q k.length = true := bit_of_snoc_isPrefix hK
  have hkn : k.length < n := by
    have := hK.length_le
    rw [List.length_append, List.length_singleton, length_firstBits] at this
    exact this
  obtain ⟨g, hg, rfl, hkey⟩ := hl.mem_path ht hgo hx hkq hkn.le
  have hlen : k.length = T.len g.val := (ht.key_isPrefix hx).2
  obtain rfl : g = f := by
    rcases List.mem_cons.mp hg with rfl | hg
    · rfl
    · exfalso
      obtain ⟨a, b, rfl⟩ := List.append_of_mem hg
      have hplug := hl.plug_eq
      rw [← List.cons_append, plug_append] at hplug
      obtain ⟨k', hctx, hwf⟩ := Wf.split (hplug.symm ▸ ht)
      cases hctx with
      | cons _ _ _ h3 _ _ =>
        rw [← h3 _ hkey, hl.onPath g (by simp), ← hlen, hbit] at hwf
        obtain ⟨e', he'⟩ := hwf.exists_entry (plug_ne_nil a (join_ne_nil _ _ _ _ _))
        refine hright e' ?_ (hwf.key_isPrefix he').1
        rw [← hplug, entries_plug, List.mem_append, List.mem_append]
        exact .inl (.inr he')
  rw [hlen] at hkq hbit hkn
  refine ⟨hkq ▸ hkey, hkn, hbit, fun hsib => ?_⟩
  -- without a left branch there is no entry to the left
  obtain ⟨kf, hctx, -⟩ := hl.split ht
  have hnear := hl.stopped (hgo _ hkn)
  rw [← hl.plug_eq, hnear, plug_cons, hsib] at he
  cases hctx with
  | cons hc h1 _ h3 _ _ =>
    have hk : k <+: e.1 := (List.prefix_append _ _).trans hleft
    have hin := hc.mem_hole (h1.trans (h3 _ hkey ▸ hk)) he
    have hself : e.1 = k := by
      cases hs : g.side <;> simpa [hs, join, entries_node, hkey] using congrArg Prod.fst
        (show e = (k, g.ptr, g.val) by simpa [hs, join, entries_node, hkey] using hin)
    have := hleft.length_le
    simp [hself] at this

/-- At such a landing node there is such an entry, and the cells after the node begin with a
smaller entry that the query does not extend. -/
theorem astray (hl : Landing T q go t f c near) (ht : Wf T [] t)
    (hgo : ∀ v, T.len v < n → go v = true)
    (hkey : T.key f.val = some (firstBits q (T.len f.val))) (hn : T.len f.val < n)
    (hq : q (T.len f.val) = true) (hsib : f.sib ≠ .nil) :
    Astray T t (firstBits q n) ∧ ∃ e es, (e.1 < firstBits q n ∧ ¬ e.1 <+: firstBits q n) ∧
      entriesOf T ((join f.side f.ptr f.val near f.sib).pre.tail ++ Ctx.preAfter c) =
        e :: es := by
  obtain ⟨kf, hcf, hkf, hwf⟩ := hl.below ht hkey (a := []) (g := f) (b := c) rfl
  have hnear := hl.stopped (hgo _ hn)
  have hside : f.side = .right := by
    have hbit := hl.onPath f (by simp)
    cases hs : f.side
    · rw [hs, hq] at hbit
      cases hbit
    · rfl
  subst hnear
  obtain ⟨key, h1, h2, -, -, -, h6⟩ := wf_join.mp hwf
  obtain rfl : firstBits q (T.len f.val) = key := h1.eq_of_length (by simp [h2])
  rw [hside] at h6
  have hK : firstBits q (T.len f.val) ++ [true] <+: firstBits q n := by
    rw [← hq, ← firstBits_succ]
    exact firstBits_isPrefix q hn
  obtain ⟨e, he⟩ := h6.exists_entry hsib
  have hent : entries T t = before T c ++ ((firstBits q (T.len f.val), f.ptr, f.val) ::
      entries T f.sib) ++ after T c := by
    rw [← hl.plug_eq, plug_cons, entries_plug, hside]
    simp [join, entries_node, hkey]
  refine ⟨⟨_, (f.ptr, f.val), by simp [hent], hK, fun e' he' hpre => ?_, e, by simp [hent, he],
    (h6.key_isPrefix he).1⟩, ?_⟩
  · have hkpre : kf <+: e'.1 := hkf.trans ((List.prefix_append _ _).trans hpre)
    rw [← hl.plug_eq, plug_cons] at he'
    have hin := hcf.mem_hole hkpre he'
    rw [hside] at hin
    simp only [join, entries_node, hkey, Option.map_some, Option.toList_some, entries_nil,
      List.append_nil, List.singleton_append, List.mem_cons] at hin
    rcases hin with rfl | hin
    · have := hpre.length_le
      simp at this
    · exact not_both_snoc_isPrefix hpre (h6.key_isPrefix hin).1
  · have hrest : entriesOf T ((join f.side f.ptr f.val .nil f.sib).pre.tail ++ Ctx.preAfter c) =
        entries T f.sib ++ after T c := by
      rw [hside]
      simp [join, pre]
    cases hes : entries T f.sib with
    | nil => simp [hes] at he
    | cons e₀ es =>
      have hleft := (h6.key_isPrefix (e := e₀.1) (x := e₀.2) (by simp [hes])).1
      refine ⟨e₀, es ++ after T c, ⟨lt_of_branch hleft hK, ?_⟩, by rw [hrest, hes]; rfl⟩
      intro hpre
      exact not_both_snoc_isPrefix hK (hleft.trans hpre)

end Landing

end OpxCommonUtils.Trie
