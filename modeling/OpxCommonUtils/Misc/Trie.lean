import OpxCommonUtils.Misc.LinkTree
import OpxCommonUtils.Misc.BitString
import Mathlib.Data.List.Pairwise

/-!
# Path-compressed binary tries

A binary tree whose nodes stand for bit strings is a trie when a node's string is a proper
prefix of the strings below it, the bit after it choosing the side. Nodes that hold no entry
are kept only where two branches part. The string of a node is not stored: `View` says how long
it is and which key the node's entry has, and `Wf` is the invariant. A trie lists its entries in
lexicographic order (`Wf.sorted`), and whatever a stream matches lies on the path that follows
the stream's bits (`CtxWf.mem_of_path`), even where that path skips bits.
-/

namespace OpxCommonUtils

/-- The bit that leads to a side. -/
def Side.bit : Side → Bool
  | .left => false
  | .right => true

@[simp] theorem Side.bit_left : Side.left.bit = false := rfl

@[simp] theorem Side.bit_right : Side.right.bit = true := rfl

@[simp] theorem Side.bit_flip (s : Side) : s.flip.bit = !s.bit := by cases s <;> rfl

theorem Side.exists_bit (b : Bool) : ∃ s : Side, s.bit = b := by
  cases b
  · exact ⟨.left, rfl⟩
  · exact ⟨.right, rfl⟩

namespace Trie

open Tree

/-- What a trie reads off a payload: the length of the node's string and the key of the entry
the node holds, if it holds one. -/
structure View (β : Type) where
  len : β → Nat
  key : β → Option (List Bool)

variable {β : Type}

/-- The trie invariant of a subtree all of whose strings extend `k`. -/
inductive Wf (T : View β) : List Bool → Tree β → Prop
  | nil {k : List Bool} : Wf T k .nil
  | node {k key : List Bool} {p : Ptr} {v : β} {l r : Tree β} :
      k <+: key → key.length = T.len v → (∀ e, T.key v = some e → e = key) →
      (T.key v = none → l ≠ .nil ∧ r ≠ .nil) →
      Wf T (key ++ [false]) l → Wf T (key ++ [true]) r → Wf T k (.node p v l r)

/-- The trie invariant of a context whose hole takes a nonempty subtree below `k`. -/
inductive CtxWf (T : View β) : List Bool → List (Frame β) → Prop
  | nil : CtxWf T [] []
  | cons {k key : List Bool} {f : Frame β} {c : List (Frame β)} :
      CtxWf T k c → k <+: key → key.length = T.len f.val → (∀ e, T.key f.val = some e → e = key) →
      (T.key f.val = none → f.sib ≠ .nil) → Wf T (key ++ [!f.side.bit]) f.sib →
      CtxWf T (key ++ [f.side.bit]) (f :: c)

variable {T : View β}

theorem wf_join {k : List Bool} {s : Side} {p : Ptr} {v : β} {near far : Tree β} :
    Wf T k (join s p v near far) ↔
      ∃ key, k <+: key ∧ key.length = T.len v ∧ (∀ e, T.key v = some e → e = key) ∧
        (T.key v = none → near ≠ .nil ∧ far ≠ .nil) ∧
        Wf T (key ++ [s.bit]) near ∧ Wf T (key ++ [!s.bit]) far := by
  cases s with
  | left =>
    constructor
    · rintro (_ | ⟨h1, h2, h3, h4, h5, h6⟩)
      exact ⟨_, h1, h2, h3, h4, h5, h6⟩
    · rintro ⟨key, h1, h2, h3, h4, h5, h6⟩
      exact .node h1 h2 h3 h4 h5 h6
  | right =>
    constructor
    · rintro (_ | ⟨h1, h2, h3, h4, h5, h6⟩)
      exact ⟨_, h1, h2, h3, fun h => (h4 h).symm, h6, h5⟩
    · rintro ⟨key, h1, h2, h3, h4, h5, h6⟩
      exact .node h1 h2 h3 (fun h => (h4 h).symm) h6 h5

theorem wf_node {k : List Bool} {p : Ptr} {v : β} {l r : Tree β} :
    Wf T k (.node p v l r) ↔
      ∃ key, k <+: key ∧ key.length = T.len v ∧ (∀ e, T.key v = some e → e = key) ∧
        (T.key v = none → l ≠ .nil ∧ r ≠ .nil) ∧
        Wf T (key ++ [false]) l ∧ Wf T (key ++ [true]) r :=
  wf_join (s := .left)

/-- A subtree may stand wherever a shorter string is asked for. -/
theorem Wf.weaken {k k' : List Bool} {t : Tree β} (h : Wf T k t) (hk : k' <+: k) : Wf T k' t := by
  cases h with
  | nil => exact .nil
  | node h1 h2 h3 h4 h5 h6 => exact .node (hk.trans h1) h2 h3 h4 h5 h6

/-- The invariant reads the view at the payloads of the tree only. -/
theorem Wf.congr {T' : View β} {k : List Bool} {t : Tree β} (h : Wf T k t)
    (hlen : ∀ x ∈ t.pre, T'.len x.2 = T.len x.2) (hkey : ∀ x ∈ t.pre, T'.key x.2 = T.key x.2) :
    Wf T' k t := by
  induction h with
  | nil => exact .nil
  | @node k key p v l r h1 h2 h3 h4 _ _ ihl ihr =>
    simp only [pre, List.mem_cons, List.mem_append] at hlen hkey
    have hv : T'.key v = T.key v := hkey (p, v) (.inl rfl)
    refine .node h1 ?_ ?_ ?_ (ihl ?_ ?_) (ihr ?_ ?_)
    · exact h2.trans (hlen (p, v) (.inl rfl)).symm
    · rwa [hv]
    · rwa [hv]
    · exact fun x hx => hlen x (.inr (.inl hx))
    · exact fun x hx => hkey x (.inr (.inl hx))
    · exact fun x hx => hlen x (.inr (.inr hx))
    · exact fun x hx => hkey x (.inr (.inr hx))

/-- A well-formed tree splits at any subtree. -/
theorem Wf.split {c : List (Frame β)} {t : Tree β} (h : Wf T [] (plug c t)) :
    ∃ k, CtxWf T k c ∧ Wf T k t := by
  induction c generalizing t with
  | nil => exact ⟨[], .nil, h⟩
  | cons f c ih =>
    obtain ⟨k, hc, ht⟩ := ih h
    obtain ⟨key, h1, h2, h3, h4, h5, h6⟩ := wf_join.mp ht
    exact ⟨_, .cons hc h1 h2 h3 (fun h => (h4 h).2) h6, h5⟩

/-- A node without an entry keeps both children. -/
theorem Wf.children_of_glue {k : List Bool} {p : Ptr} {v : β} {l r : Tree β}
    (h : Wf T k (.node p v l r)) (hv : T.key v = none) : l ≠ .nil ∧ r ≠ .nil := by
  obtain ⟨_, -, -, -, h4, -, -⟩ := wf_node.mp h
  exact h4 hv

theorem CtxWf.plug {k : List Bool} {c : List (Frame β)} {t : Tree β} (hc : CtxWf T k c)
    (ht : Wf T k t) (hne : t ≠ .nil) : Wf T [] (plug c t) := by
  induction hc generalizing t with
  | nil => exact ht
  | @cons k key f c _ h1 h2 h3 h4 h5 ih =>
    exact ih (wf_join.mpr ⟨key, h1, h2, h3, fun h => ⟨hne, h4 h⟩, ht, h5⟩) (join_ne_nil _ _ _ _ _)

/-- The hole may be left empty below a node that holds an entry. -/
theorem CtxWf.plug_empty {k : List Bool} {f : Frame β} {c : List (Frame β)}
    (hc : CtxWf T k (f :: c)) (hkey : T.key f.val ≠ none) :
    Wf T [] (Tree.plug (f :: c) .nil) := by
  cases hc with
  | cons hc h1 h2 h3 h4 h5 =>
    refine hc.plug (wf_join.mpr ⟨_, h1, h2, h3, fun h => absurd h hkey, .nil, h5⟩) ?_
    exact join_ne_nil _ _ _ _ _

/-! ## Entries -/

/-- The entries of a tree in preorder, each with its key and its cell. -/
def entries (T : View β) (t : Tree β) : List (List Bool × Ptr × β) :=
  t.pre.filterMap fun x => (T.key x.2).map fun k => (k, x)

/-- The entries before the hole. -/
def before (T : View β) (c : List (Frame β)) : List (List Bool × Ptr × β) :=
  (Ctx.preBefore c).filterMap fun x => (T.key x.2).map fun k => (k, x)

/-- The entries after the hole. -/
def after (T : View β) (c : List (Frame β)) : List (List Bool × Ptr × β) :=
  (Ctx.preAfter c).filterMap fun x => (T.key x.2).map fun k => (k, x)

theorem mem_entries {t : Tree β} {k : List Bool} {x : Ptr × β} :
    (k, x) ∈ entries T t ↔ x ∈ t.pre ∧ T.key x.2 = some k := by
  simp only [entries, List.mem_filterMap, Option.map_eq_some_iff, Prod.mk.injEq]
  constructor
  · rintro ⟨y, hy, k', hk', rfl, rfl⟩
    exact ⟨hy, hk'⟩
  · rintro ⟨hx, hk⟩
    exact ⟨x, hx, k, hk, rfl, rfl⟩

/-- The entries depend on the keys of the tree's payloads only. -/
theorem entries_congr {T' : View β} {t : Tree β}
    (hkey : ∀ x ∈ t.pre, T'.key x.2 = T.key x.2) : entries T' t = entries T t := by
  unfold entries
  refine List.filterMap_congr fun x hx => ?_
  rw [hkey x hx]

@[simp] theorem entries_nil : entries T (.nil : Tree β) = [] := rfl

theorem entries_node (p : Ptr) (v : β) (l r : Tree β) :
    entries T (.node p v l r) =
      ((T.key v).map fun k => (k, p, v)).toList ++ entries T l ++ entries T r := by
  cases hv : T.key v <;> simp [entries, pre, hv]

theorem entries_plug (c : List (Frame β)) (t : Tree β) :
    entries T (plug c t) = before T c ++ entries T t ++ after T c := by
  simp [entries, before, after, pre_plug]

@[simp] theorem before_nil : before T ([] : List (Frame β)) = [] := rfl

@[simp] theorem after_nil : after T ([] : List (Frame β)) = [] := rfl

theorem before_cons (f : Frame β) (c : List (Frame β)) :
    before T (f :: c) = before T c ++ ((T.key f.val).map fun k => (k, f.ptr, f.val)).toList ++
      (match f.side with | .left => [] | .right => entries T f.sib) := by
  cases hv : T.key f.val <;> cases hs : f.side <;>
    simp [before, entries, Ctx.preBefore, hv, hs]

theorem after_cons (f : Frame β) (c : List (Frame β)) :
    after T (f :: c) =
      (match f.side with | .left => entries T f.sib | .right => []) ++ after T c := by
  cases hs : f.side <;> simp [after, entries, Ctx.preAfter, hs]

/-- Entries below a node extend its string, and their lengths are the lengths of the nodes. -/
theorem Wf.key_isPrefix {k e : List Bool} {t : Tree β} {x : Ptr × β} (h : Wf T k t)
    (hx : (e, x) ∈ entries T t) : k <+: e ∧ e.length = T.len x.2 := by
  induction h with
  | nil => simp at hx
  | @node k key p v l r h1 h2 h3 h4 _ _ ihl ihr =>
    rw [entries_node] at hx
    simp only [List.mem_append, Option.mem_toList, Option.map_eq_some_iff,
      Prod.mk.injEq] at hx
    rcases hx with (⟨e', he', rfl, rfl⟩ | hx) | hx
    · rw [h3 _ he']
      exact ⟨h1, h2⟩
    · obtain ⟨hp, hl⟩ := ihl hx
      exact ⟨h1.trans ((List.prefix_append _ _).trans hp), hl⟩
    · obtain ⟨hp, hl⟩ := ihr hx
      exact ⟨h1.trans ((List.prefix_append _ _).trans hp), hl⟩

/-- A nonempty trie has an entry. -/
theorem Wf.exists_entry {k : List Bool} {t : Tree β} (h : Wf T k t) (hne : t ≠ .nil) :
    ∃ e, e ∈ entries T t := by
  induction h with
  | nil => exact absurd rfl hne
  | @node k key p v l r h1 h2 h3 h4 _ _ ihl _ =>
    cases hv : T.key v with
    | some e => exact ⟨(e, p, v), by simp [entries_node, hv]⟩
    | none =>
      obtain ⟨e, he⟩ := ihl (h4 hv).1
      exact ⟨e, by simp [entries_node, he]⟩

/-- Strings grow along every path from a node. -/
theorem Wf.length_le {k : List Bool} {t : Tree β} (h : Wf T k t) :
    ∀ x ∈ t.pre, k.length ≤ T.len x.2 := by
  induction h with
  | nil => simp [pre]
  | @node k key p v l r h1 h2 h3 h4 _ _ ihl ihr =>
    intro x hx
    have hlen := h1.length_le
    simp only [pre, List.mem_cons, List.mem_append] at hx
    simp only [List.length_append, List.length_singleton] at ihl ihr
    rcases hx with rfl | hx | hx
    · exact h2 ▸ hlen
    · have := ihl x hx
      omega
    · have := ihr x hx
      omega

/-- The entries of a trie are in strictly increasing lexicographic order of their keys. -/
theorem Wf.sorted {k : List Bool} {t : Tree β} (h : Wf T k t) :
    (entries T t).Pairwise (fun a b => a.1 < b.1) := by
  induction h with
  | nil => exact List.Pairwise.nil
  | @node k key p v l r h1 h2 h3 h4 hl hr ihl ihr =>
    rw [entries_node, List.append_assoc, List.pairwise_append, List.pairwise_append]
    refine ⟨?_, ⟨ihl, ihr, ?_⟩, ?_⟩
    · cases T.key v <;> simp
    · intro a ha b hb
      exact lt_of_branch (hl.key_isPrefix ha).1 (hr.key_isPrefix hb).1
    · intro a ha b hb
      simp only [Option.mem_toList, Option.map_eq_some_iff] at ha
      obtain ⟨e, he, rfl⟩ := ha
      rw [h3 e he]
      rcases List.mem_append.mp hb with hb | hb
      · obtain ⟨s, hs⟩ := (hl.key_isPrefix hb).1
        exact lt_of_isPrefix ⟨[false] ++ s, by simpa using hs⟩ (by simp [← hs])
      · obtain ⟨s, hs⟩ := (hr.key_isPrefix hb).1
        exact lt_of_isPrefix ⟨[true] ++ s, by simpa using hs⟩ (by simp [← hs])

/-- No key has two entries. -/
theorem Wf.entry_unique {k e : List Bool} {t : Tree β} {x y : Ptr × β} (h : Wf T k t)
    (hx : (e, x) ∈ entries T t) (hy : (e, y) ∈ entries T t) : x = y := by
  have hdiff : (entries T t).Pairwise (fun a b => a.1 ≠ b.1) := h.sorted.imp (fun hlt => hlt.ne)
  by_contra hne
  have : Std.Symm (fun a b : List Bool × Ptr × β => a.1 ≠ b.1) := ⟨fun _ _ hab => hab.symm⟩
  exact hdiff.forall hx hy (by simpa using hne) rfl

/-! ## Size and height -/

/-- At least every second cell of a trie holds an entry. -/
theorem Wf.size_lt {k : List Bool} {t : Tree β} (h : Wf T k t) (hne : t ≠ .nil) :
    t.size < 2 * (entries T t).length := by
  induction h with
  | nil => exact absurd rfl hne
  | @node k key p v l r h1 h2 h3 h4 _ _ ihl ihr =>
    have hle : ∀ {c : Tree β}, (c ≠ .nil → c.size < 2 * (entries T c).length) →
        c.size ≤ 2 * (entries T c).length := by
      intro c ih
      cases c with
      | nil => exact Nat.zero_le _
      | node => exact (ih (by simp)).le
    rw [entries_node, List.length_append, List.length_append, size]
    cases hv : T.key v with
    | none =>
      have hl := ihl (h4 hv).1
      have hr := ihr (h4 hv).2
      simp only [Option.map_none, Option.toList_none, List.length_nil]
      omega
    | some e =>
      have hl := hle ihl
      have hr := hle ihr
      simp only [Option.map_some, Option.toList_some, List.length_singleton]
      omega

/-- The entries that a stream matches lie on one path, so that they are no more than the tree is
high. -/
theorem Wf.countP_le_height (q : Nat → Bool) {k : List Bool} {t : Tree β} (h : Wf T k t) :
    (entries T t).countP (fun e => e.1 = firstBits q e.1.length) ≤ t.height := by
  induction h with
  | nil => simp
  | @node k key p v l r h1 h2 h3 h4 hl hr ihl ihr =>
    have hside : ∀ {b : Bool} {c : Tree β}, Wf T (key ++ [b]) c → q key.length ≠ b →
        (entries T c).countP (fun e => e.1 = firstBits q e.1.length) = 0 := by
      intro b c hc hb
      rw [List.countP_eq_zero]
      intro e he hmatch
      have hpre := (hc.key_isPrefix he).1
      rw [of_decide_eq_true hmatch] at hpre
      exact hb (bit_of_snoc_isPrefix hpre)
    have hown : (((T.key v).map fun e => (e, p, v)).toList).countP
        (fun e => e.1 = firstBits q e.1.length) ≤ 1 := by
      refine List.countP_le_length.trans ?_
      cases T.key v <;> simp
    rw [entries_node, List.countP_append, List.countP_append, height]
    cases hq : q key.length with
    | false =>
      have := hside hr (by simp [hq])
      omega
    | true =>
      have := hside hl (by simp [hq])
      omega

/-! ## Paths -/

/-- The path to the hole follows the bits of `q`. -/
def OnPath (T : View β) (q : Nat → Bool) (c : List (Frame β)) : Prop :=
  ∀ f ∈ c, f.side.bit = q (T.len f.val)

theorem OnPath.tail {q : Nat → Bool} {f : Frame β} {c : List (Frame β)}
    (h : OnPath T q (f :: c)) : OnPath T q c := fun g hg => h g (List.mem_cons_of_mem f hg)

/-- Whatever matches `q` lies on the path that follows `q` or below its end. -/
theorem CtxWf.mem_of_path {q : Nat → Bool} {k e : List Bool} {c : List (Frame β)} {s : Tree β}
    {x : Ptr × β} (hc : CtxWf T k c) (hq : OnPath T q c) (hx : (e, x) ∈ entries T (Tree.plug c s))
    (he : e = firstBits q e.length) :
    (e, x) ∈ entries T s ∨ ∃ f ∈ c, x = (f.ptr, f.val) ∧ T.key f.val = some e := by
  induction hc generalizing s with
  | nil => exact .inl hx
  | @cons k key f c _ h1 h2 h3 h4 h5 ih =>
    rcases ih hq.tail hx with hin | ⟨g, hg, hgx, hge⟩
    · have hside : (e, x) ∈ entries T f.sib → False := by
        intro hsib
        have hpre := (h5.key_isPrefix hsib).1
        rw [he] at hpre
        have hbit := bit_of_snoc_isPrefix hpre
        have hfb := hq f (by simp)
        rw [h2, ← hfb] at hbit
        cases hb : f.side.bit <;> simp [hb] at hbit
      cases hs : f.side with
      | left =>
        rw [hs] at hin
        simp only [join, entries_node, List.mem_append, Option.mem_toList,
          Option.map_eq_some_iff, Prod.mk.injEq] at hin
        rcases hin with (⟨e', he', rfl, rfl⟩ | hin) | hin
        · exact .inr ⟨f, by simp, rfl, he'⟩
        · exact .inl hin
        · exact absurd hin hside
      | right =>
        rw [hs] at hin
        simp only [join, entries_node, List.mem_append, Option.mem_toList,
          Option.map_eq_some_iff, Prod.mk.injEq] at hin
        rcases hin with (⟨e', he', rfl, rfl⟩ | hin) | hin
        · exact .inr ⟨f, by simp, rfl, he'⟩
        · exact absurd hin hside
        · exact .inl hin
    · exact .inr ⟨g, by simp [hg], hgx, hge⟩

/-- The string of the hole continues the string of the node above it. -/
theorem CtxWf.length_top {k : List Bool} {f : Frame β} {c : List (Frame β)}
    (hc : CtxWf T k (f :: c)) : k.length = T.len f.val + 1 := by
  cases hc with
  | cons _ _ h2 _ _ _ => simp [h2]

end Trie

end OpxCommonUtils
