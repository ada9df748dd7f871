import OpxCommonUtils.Misc.Trie

/-!
# Searching a trie

A search follows the bits of a query as long as `go` holds of the nodes and a child is there; it
ends at a `Landing`. An entry that matches the query and is not longer than the search went is
the landing node or one of the nodes above it, so that exact and longest matches are found by
looking back along the path. `Landing.cut` finds the place of a key that is to be added: above
the cut every string is a shorter prefix of the key, below it everything extends the bits that
the key shares with the landing node's entry.
-/

namespace OpxCommonUtils.Trie

open Tree

variable {β : Type} {T : View β}

/-! ## Frames of a path -/

/-- Strings get shorter towards the root. -/
theorem CtxWf.len_lt {k : List Bool} {c : List (Frame β)} (hc : CtxWf T k c) :
    ∀ f ∈ c, T.len f.val < k.length := by
  induction hc with
  | nil => simp
  | @cons k key f c _ h1 h2 _ _ _ ih =>
    intro g hg
    have hlen := h1.length_le
    simp only [List.length_append, List.length_singleton]
    rcases List.mem_cons.mp hg with rfl | hg
    · omega
    · have := ih g hg
      omega

theorem CtxWf.len_sorted {k : List Bool} {c : List (Frame β)} (hc : CtxWf T k c) :
    c.Pairwise (fun f g => T.len g.val < T.len f.val) := by
  induction hc with
  | nil => exact List.Pairwise.nil
  | @cons k key f c hc h1 h2 _ _ _ ih =>
    refine List.pairwise_cons.mpr ⟨fun g hg => ?_, ih⟩
    have hlen := h1.length_le
    have := hc.len_lt g hg
    omega

/-- The entry of a node on the path is an entry of the tree. -/
theorem mem_entries_of_frame {c : List (Frame β)} {t : Tree β} {f : Frame β} {e : List Bool}
    (hf : f ∈ c) (he : T.key f.val = some e) : (e, f.ptr, f.val) ∈ entries T (plug c t) := by
  induction c generalizing t with
  | nil => simp at hf
  | cons g c ih =>
    rcases List.mem_cons.mp hf with rfl | hf
    · rw [plug_cons, entries_plug]
      cases hs : f.side <;> simp [join, entries_node, he]
    · exact ih hf

/-- The key of a node is a prefix of the keys below it. -/
theorem Wf.key_of_frame_above {s : Tree β} {a b : List (Frame β)} {x g : Frame β}
    (h : Wf T [] (plug (a ++ x :: b) s)) (hg : g ∈ a) {e e' : List Bool}
    (he : T.key g.val = some e) (he' : T.key x.val = some e') : e' <+: e := by
  rw [plug_append, plug_cons] at h
  obtain ⟨k, -, hwf⟩ := h.split
  obtain ⟨key, -, -, hkey, -, hnear, -⟩ := wf_join.mp hwf
  have hpre := (hnear.key_isPrefix (mem_entries_of_frame hg he)).1
  rw [hkey e' he']
  exact (List.prefix_append _ _).trans hpre

/-- A path whose end is at least `d` long splits at its topmost node of this kind. -/
theorem CtxWf.exists_cut {k : List Bool} {f : Frame β} {c : List (Frame β)} {d : Nat}
    (hc : CtxWf T k (f :: c)) (hd : d ≤ T.len f.val) :
    ∃ a g b, f :: c = a ++ g :: b ∧ d ≤ T.len g.val ∧ ∀ x ∈ b, T.len x.val < d := by
  induction c generalizing f k with
  | nil => exact ⟨[], f, [], rfl, hd, by simp⟩
  | cons f' c ih =>
    have hsorted := hc.len_sorted
    cases hc with
    | cons hc' _ _ _ _ _ =>
      rcases Nat.lt_or_ge (T.len f'.val) d with hlt | hge
      · refine ⟨[], f, f' :: c, rfl, hd, fun x hx => ?_⟩
        rcases List.mem_cons.mp hx with rfl | hx
        · exact hlt
        · have := List.rel_of_pairwise_cons hc'.len_sorted hx
          omega
      · obtain ⟨a, g, b, heq, hg, hb⟩ := ih hc' hge
        exact ⟨f :: a, g, b, by simp [heq], hg, hb⟩

/-- A node seen from the side a bit leads to. -/
theorem exists_join (p : Ptr) (v : β) (l r : Tree β) (b : Bool) :
    ∃ s near far, Tree.node p v l r = join s p v near far ∧ s.bit = b ∧
      near = if b then r else l := by
  cases b
  · exact ⟨.left, l, r, rfl, rfl, rfl⟩
  · exact ⟨.right, r, l, rfl, rfl, rfl⟩

/-! ## Landing -/

/-- Where a search for `q` ends in `t`: at the node `f` below `c`, with `near` the child on the
side of the query. -/
structure Landing (T : View β) (q : Nat → Bool) (go : β → Bool) (t : Tree β) (f : Frame β)
    (c : List (Frame β)) (near : Tree β) : Prop where
  plug_eq : plug (f :: c) near = t
  onPath : OnPath T q (f :: c)
  passed : ∀ g ∈ c, go g.val = true
  stopped : go f.val = true → near = .nil

namespace Landing

variable {q : Nat → Bool} {go : β → Bool} {t near : Tree β} {f : Frame β} {c : List (Frame β)}

theorem split (hl : Landing T q go t f c near) (ht : Wf T [] t) :
    ∃ k, CtxWf T k (f :: c) ∧ Wf T k near := by
  rw [← hl.plug_eq] at ht
  exact ht.split

/-- A matching entry that is at most `n` long is found on the path, when the search goes on from
all nodes shorter than `n`. -/
theorem mem_path (hl : Landing T q go t f c near) (ht : Wf T [] t) {n : Nat}
    (hgo : ∀ v, T.len v < n → go v = true) {e : List Bool} {x : Ptr × β}
    (hx : (e, x) ∈ entries T t) (he : e = firstBits q e.length) (hn : e.length ≤ n) :
    ∃ g ∈ f :: c, x = (g.ptr, g.val) ∧ T.key g.val = some e := by
  obtain ⟨k, hc, hnear⟩ := hl.split ht
  rw [← hl.plug_eq] at hx
  rcases hc.mem_of_path hl.onPath hx he with hin | hin
  · exfalso
    rcases Nat.lt_or_ge (T.len f.val) n with hlt | hge
    · rw [hl.stopped (hgo _ hlt)] at hin
      simp at hin
    · have hk := (hnear.key_isPrefix hin).1.length_le
      rw [hc.length_top] at hk
      omega
  · exact hin

/-- The entry with exactly the first `n` bits of the query is at the landing node. -/
theorem exact (hl : Landing T q go t f c near) (ht : Wf T [] t) {n : Nat}
    (hgo : ∀ v, go v = decide (T.len v < n)) {x : Ptr × β}
    (hx : (firstBits q n, x) ∈ entries T t) :
    x = (f.ptr, f.val) ∧ T.key f.val = some (firstBits q n) := by
  obtain ⟨g, hg, hgx, hkey⟩ := hl.mem_path ht (n := n) (fun v hv => by simpa [hgo] using hv) hx
    (by simp) (by simp)
  rcases List.mem_cons.mp hg with rfl | hg
  · exact ⟨hgx, hkey⟩
  · have hlen := (ht.key_isPrefix hx).2
    have hpass := hl.passed g hg
    rw [length_firstBits] at hlen
    rw [hgo, decide_eq_true_iff] at hpass
    rw [hgx] at hlen
    simp only at hlen
    omega

/-- A search that passes the nodes without an entry ends at an entry. -/
theorem key_ne_none (hl : Landing T q go t f c near) (ht : Wf T [] t)
    (hgo : T.key f.val = none → go f.val = true) : T.key f.val ≠ none := by
  intro hnone
  have hnear := hl.stopped (hgo hnone)
  have hplug := hl.plug_eq
  rw [hnear, plug_cons] at hplug
  rw [← hplug] at ht
  obtain ⟨k, -, hwf⟩ := ht.split
  obtain ⟨_, -, -, -, h4, -, -⟩ := wf_join.mp hwf
  exact (h4 hnone).1 rfl

/-- Below a node of the path everything extends the node's string, which is a prefix of the
entry the search landed on. -/
theorem below (hl : Landing T q go t f c near) (ht : Wf T [] t) {h : Nat → Bool}
    (hkey : T.key f.val = some (firstBits h (T.len f.val))) {a b : List (Frame β)} {g : Frame β}
    (heq : f :: c = a ++ g :: b) :
    ∃ k, CtxWf T k b ∧ k <+: firstBits h (T.len g.val) ∧
      Wf T (firstBits h (T.len g.val)) (join g.side g.ptr g.val (plug a near) g.sib) := by
  have hplug := hl.plug_eq
  rw [heq, plug_append, plug_cons] at hplug
  rw [← hplug] at ht
  obtain ⟨k, hcb, hS⟩ := ht.split
  obtain ⟨key, h1, h2, h3, h4, h5, h6⟩ := wf_join.mp hS
  have hS' : Wf T key (join g.side g.ptr g.val (plug a near) g.sib) :=
    wf_join.mpr ⟨key, List.prefix_refl _, h2, h3, h4, h5, h6⟩
  have hin : (firstBits h (T.len f.val), f.ptr, f.val) ∈
      entries T (join g.side g.ptr g.val (plug a near) g.sib) := by
    have hmem : f ∈ a ++ [g] := by
      cases a with
      | nil => simp_all
      | cons x a => simp_all
    have := mem_entries_of_frame (t := near) hmem hkey
    rwa [plug_append, plug_cons, plug_nil] at this
  have hkeyh : key = firstBits h (T.len g.val) := by
    rw [← h2]
    exact eq_firstBits_of_isPrefix (hS'.key_isPrefix hin).1
  exact ⟨k, hcb, hkeyh ▸ h1, hkeyh ▸ hS'⟩

end Landing

/-- A path cut at length `d`: `g` is its topmost node that is at least `d` long, and what is below
`g` extends the `d` bits which the query `q` and the stream `h` share. -/
structure Cut (T : View β) (q h : Nat → Bool) (d : Nat) (path : List (Frame β)) (near : Tree β)
    (a : List (Frame β)) (g : Frame β) (b : List (Frame β)) (k : List Bool) : Prop where
  path_eq : path = a ++ g :: b
  le : d ≤ T.len g.val
  above : ∀ x ∈ b, T.len x.val < d
  ctx : CtxWf T k b
  hole : k <+: firstBits q d
  shared : firstBits q d <+: firstBits h (T.len g.val)
  wf : Wf T (firstBits h (T.len g.val)) (join g.side g.ptr g.val (plug a near) g.sib)

namespace Landing

variable {q : Nat → Bool} {go : β → Bool} {t near : Tree β} {f : Frame β} {c : List (Frame β)}

/-- A path is cut where the query leaves the entry of the landing node. -/
theorem cut (hl : Landing T q go t f c near) (ht : Wf T [] t) {h : Nat → Bool} {d : Nat}
    (hkey : T.key f.val = some (firstBits h (T.len f.val))) (hd : d ≤ T.len f.val)
    (hagree : ∀ i < d, q i = h i) : ∃ a g b k, Cut T q h d (f :: c) near a g b k := by
  obtain ⟨kf, hc, -⟩ := hl.split ht
  obtain ⟨a, g, b, heq, hg, hb⟩ := hc.exists_cut hd
  obtain ⟨k, hcb, hk, hwf⟩ := hl.below ht hkey heq
  have hqd : firstBits q d = firstBits h d := firstBits_eq_iff.mpr hagree
  refine ⟨a, g, b, k, heq, hg, hb, hcb, ?_, hqd ▸ firstBits_isPrefix h hg, hwf⟩
  have hlen : k.length ≤ d := by
    cases b with
    | nil =>
      cases hcb
      simp
    | cons x b =>
      have := hb x (by simp)
      rw [hcb.length_top]
      omega
  rw [eq_firstBits_of_isPrefix hk, hqd]
  exact firstBits_isPrefix h hlen

/-- The way from the landing node up to the cut. -/
theorem exists_climb (hl : Landing T q go t f c near) (ht : Wf T [] t) {h : Nat → Bool} {d : Nat}
    {a b : List (Frame β)} {g : Frame β} {k : List Bool}
    (hcut : Cut T q h d (f :: c) near a g b k) :
    ∃ a', c = a' ++ b ∧ (∀ x ∈ a', T.len g.val ≤ T.len x.val) ∧
      plug a' (join f.side f.ptr f.val near f.sib) =
        join g.side g.ptr g.val (plug a near) g.sib := by
  obtain ⟨a', rfl, ha'⟩ : ∃ a', c = a' ++ b ∧ a ++ [g] = f :: a' := by
    have hpath := hcut.path_eq
    cases a with
    | nil =>
      obtain ⟨rfl, rfl⟩ := List.cons.inj hpath
      exact ⟨[], rfl, rfl⟩
    | cons x a =>
      obtain ⟨rfl, rfl⟩ := List.cons.inj hpath
      exact ⟨a ++ [g], by simp, rfl⟩
  refine ⟨a', rfl, ?_, ?_⟩
  · obtain ⟨_, hctx, -⟩ := hl.split ht
    have hsorted := hctx.len_sorted
    rw [hcut.path_eq] at hsorted
    intro x hx
    have hxag : x ∈ a ++ [g] := by simp [ha', hx]
    rcases List.mem_append.mp hxag with hxa | hxg
    · exact ((List.pairwise_append.mp hsorted).2.2 x hxa g (by simp)).le
    · rw [List.mem_singleton.mp hxg]
  · rw [← plug_cons, ← ha', plug_append]
    rfl

/-- The landing node is at or below the cut. -/
theorem len_cut_le (hl : Landing T q go t f c near) (ht : Wf T [] t) {a b : List (Frame β)}
    {g : Frame β} (heq : f :: c = a ++ g :: b) : T.len g.val ≤ T.len f.val := by
  obtain ⟨kf, hc, -⟩ := hl.split ht
  have hg : g ∈ f :: c := by simp [heq]
  rcases List.mem_cons.mp hg with rfl | hg
  · exact le_rfl
  · exact (List.rel_of_pairwise_cons hc.len_sorted hg).le

/-- When the `n` bits of the query are the key of an entry, then the query agrees with the landing
node for `n` bits and the entry is at the cut. -/
theorem entry_at_cut (hl : Landing T q go t f c near) (ht : Wf T [] t) {h : Nat → Bool}
    {d n : Nat} (hgo : ∀ v, T.len v < n → go v = true)
    (hkey : T.key f.val = some (firstBits h (T.len f.val))) (hd : d ≤ min (T.len f.val) n)
    (hdiff : d < min (T.len f.val) n → q d ≠ h d) {a b : List (Frame β)} {g : Frame β}
    {k : List Bool} (hcut : Cut T q h d (f :: c) near a g b k) {x : Ptr × β}
    (hx : (firstBits q n, x) ∈ entries T t) :
    d = n ∧ T.len g.val = n ∧ x = (g.ptr, g.val) := by
  obtain ⟨g', hg', rfl, hgkey⟩ := hl.mem_path ht hgo hx (by simp) (by simp)
  have hlen : T.len g'.val = n := by
    have := (ht.key_isPrefix hx).2
    simpa using this.symm
  obtain ⟨kf, hc, -⟩ := hl.split ht
  have hsorted := hc.len_sorted
  obtain ⟨a', b', heq'⟩ := List.append_of_mem hg'
  -- the landing node is not above the entry, so that its stream has the query's first bits
  obtain ⟨k', -, -, hwf'⟩ := hl.below ht hkey heq'
  obtain ⟨key, h1, h2, h3, -, -, -⟩ := wf_join.mp hwf'
  have hqh : firstBits q n = firstBits h n := by
    rw [h3 _ hgkey, ← hlen]
    exact (h1.eq_of_length (by rw [length_firstBits, h2])).symm
  have hf : n ≤ T.len f.val := hlen ▸ hl.len_cut_le ht heq'
  have hdn : d = n := by
    by_contra hne
    exact hdiff (by omega) (firstBits_eq_iff.mp hqh d (by omega))
  rw [hcut.path_eq] at hg' hsorted
  rcases List.mem_append.mp hg' with hga | hgb
  · have := (List.pairwise_append.mp hsorted).2.2 g' hga g (by simp)
    have := hcut.le
    omega
  · rcases List.mem_cons.mp hgb with rfl | hgb
    · exact ⟨hdn, hlen, rfl⟩
    · have := hcut.above g' hgb
      omega

/-- A node that is exactly as long as the cut, with the query going on, is the landing node. -/
theorem cut_eq_landing (hl : Landing T q go t f c near) {h : Nat → Bool} {d n : Nat}
    (hkey : T.key f.val = some (firstBits h (T.len f.val))) (hdn : d < n)
    (hdiff : d < min (T.len f.val) n → q d ≠ h d) {a b : List (Frame β)} {g : Frame β}
    {k : List Bool} (hcut : Cut T q h d (f :: c) near a g b k) (hg : T.len g.val = d) :
    a = [] ∧ f = g ∧ c = b := by
  have hpath := hcut.path_eq
  cases a with
  | nil =>
    obtain ⟨rfl, rfl⟩ := List.cons.inj hpath
    exact ⟨rfl, rfl, rfl⟩
  | cons x a =>
    exfalso
    obtain ⟨rfl, rfl⟩ := List.cons.inj hpath
    obtain ⟨key, -, h2, -, -, h5, -⟩ := wf_join.mp hcut.wf
    have hin := mem_entries_of_frame (t := near) (List.mem_cons_self (a := f) (l := a)) hkey
    have hpre := (h5.key_isPrefix hin).1
    have hbit := bit_of_snoc_isPrefix hpre
    rw [h2, hl.onPath g (by simp), hg] at hbit
    refine hdiff ?_ hbit.symm
    have hlen := hpre.length_le
    rw [List.length_append, List.length_singleton, length_firstBits, h2, hg] at hlen
    omega

end Landing

/-! ## Adding an entry -/

theorem Wf.leaf {k K : List Bool} {p : Ptr} {v : β} (hk : k <+: K) (hlen : K.length = T.len v)
    (hkey : T.key v = some K) : Wf T k (.node p v .nil .nil) :=
  .node hk hlen (fun _ he => Option.some_inj.mp (he.symm.trans hkey))
    (fun hnone => absurd hnone (by simp [hkey])) .nil .nil

/-- The root of a subtree gets another payload with an entry for its string. -/
theorem CtxWf.fill {k K : List Bool} {c : List (Frame β)} {p : Ptr} {v v' : β} {l r : Tree β}
    (hc : CtxWf T k c) (hk : k <+: K) (ht : Wf T K (.node p v l r)) (hlen : K.length = T.len v)
    (hlen' : T.len v' = T.len v) (hkey : T.key v' = some K) :
    Wf T [] (Tree.plug c (.node p v' l r)) := by
  obtain ⟨key, h1, h2, -, -, h5, h6⟩ := wf_node.mp ht
  obtain rfl : K = key := h1.eq_of_length (by omega)
  refine hc.plug (.node hk (by omega) (fun e he => ?_) (fun hnone => ?_) h5 h6) (by simp)
  · exact Option.some_inj.mp (he.symm.trans hkey)
  · rw [hkey] at hnone
    cases hnone

/-- A node for the string `X` is put above a subtree. -/
theorem CtxWf.graft {k X : List Bool} {c : List (Frame β)} {s : Side} {p : Ptr} {v : β}
    {t o : Tree β} (hc : CtxWf T k c) (hk : k <+: X) (hlen : X.length = T.len v)
    (hkey : ∀ e, T.key v = some e → e = X) (hglue : T.key v = none → o ≠ .nil)
    (ht : Wf T (X ++ [s.bit]) t) (hne : t ≠ .nil) (ho : Wf T (X ++ [!s.bit]) o) :
    Wf T [] (Tree.plug c (join s p v t o)) :=
  hc.plug (wf_join.mpr ⟨X, hk, hlen, hkey, fun h => ⟨hne, hglue h⟩, ht, ho⟩)
    (join_ne_nil _ _ _ _ _)

theorem entries_join_perm (s : Side) (p : Ptr) (v : β) (near far : Tree β) :
    (entries T (join s p v near far)).Perm
      (((T.key v).map fun k => (k, p, v)).toList ++ (entries T near ++ entries T far)) := by
  cases s with
  | left => rw [join, entries_node, List.append_assoc]
  | right =>
    rw [join, entries_node, List.append_assoc]
    exact List.perm_append_comm.append_left _

/-- Entries of the content of a hole are entries of the whole. -/
theorem entries_plug_perm {c : List (Frame β)} {t t' : Tree β} (es : List (List Bool × Ptr × β))
    (h : (entries T t').Perm (es ++ entries T t)) :
    (entries T (plug c t')).Perm (es ++ entries T (plug c t)) := by
  rw [entries_plug, entries_plug, List.append_assoc, List.append_assoc]
  refine ((h.append_right _).append_left _).trans ?_
  rw [List.append_assoc, ← List.append_assoc, ← List.append_assoc es]
  exact List.perm_append_comm.append_right _

end OpxCommonUtils.Trie
