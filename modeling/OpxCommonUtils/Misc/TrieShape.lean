import OpxCommonUtils.Misc.Trie

/-!
# The shape of a trie

The cells of a trie are where its keys branch: which keys are stored decides how many cells there
are, what string each stands for and how they hang together (`Wf.outline_eq`). Two tries with the
same keys differ only in the addresses of their cells and in what else the payloads carry, so
that no order of insertions and removals leaves a trace in the shape.
-/

namespace OpxCommonUtils

/-- A binary tree of labels, without addresses. -/
inductive Outline (γ : Type) where
  | empty
  | node (label : γ) (left right : Outline γ)
  deriving DecidableEq, Repr

namespace Outline

variable {γ δ : Type}

/-- The labels go through `g`. -/
def map (g : γ → δ) : Outline γ → Outline δ
  | .empty => .empty
  | .node a l r => .node (g a) (l.map g) (r.map g)

/-- How many labels there are. -/
def size : Outline γ → Nat
  | .empty => 0
  | .node _ l r => l.size + r.size + 1

end Outline

variable {β γ δ : Type}

/-- A tree without its addresses, each cell labelled by what `g` reads off its payload. -/
def Tree.outline (g : β → γ) : Tree β → Outline γ
  | .nil => .empty
  | .node _ v l r => .node (g v) (l.outline g) (r.outline g)

namespace Tree

@[simp] theorem outline_nil (g : β → γ) : (Tree.nil : Tree β).outline g = .empty := rfl

@[simp] theorem outline_node (g : β → γ) (p : Ptr) (v : β) (l r : Tree β) :
    (Tree.node p v l r).outline g = .node (g v) (l.outline g) (r.outline g) := rfl

theorem map_outline (f : γ → δ) (g : β → γ) (t : Tree β) :
    (t.outline g).map f = t.outline fun v => f (g v) := by
  induction t with
  | nil => rfl
  | node p v l r ihl ihr => simp [Outline.map, ihl, ihr]

theorem outline_congr {f g : β → γ} {t : Tree β} (h : ∀ x ∈ t.pre, f x.2 = g x.2) :
    t.outline f = t.outline g := by
  induction t with
  | nil => rfl
  | node p v l r ihl ihr =>
    simp only [pre, List.mem_cons, List.mem_append] at h
    rw [outline_node, outline_node, h (p, v) (.inl rfl), ihl fun x hx => h x (.inr (.inl hx)),
      ihr fun x hx => h x (.inr (.inr hx))]

@[simp] theorem size_outline (g : β → γ) (t : Tree β) : (t.outline g).size = t.size := by
  induction t with
  | nil => rfl
  | node p v l r ihl ihr => simp [Outline.size, size, ihl, ihr]

end Tree

namespace Trie

open Tree

variable {T : View β} {T' : View δ}

/-- The keys of the entries. -/
def keys (T : View β) (t : Tree β) : List (List Bool) := (entries T t).map Prod.fst

/-- A node stands for the length of its string and the key of its entry. -/
def outline (T : View β) (t : Tree β) : Outline (Nat × Option (List Bool)) :=
  t.outline fun v => (T.len v, T.key v)

theorem mem_keys {t : Tree β} {e : List Bool} : e ∈ keys T t ↔ ∃ x, (e, x) ∈ entries T t := by
  simp [keys]

@[simp] theorem keys_nil : keys T (.nil : Tree β) = [] := rfl

theorem keys_node (p : Ptr) (v : β) (l r : Tree β) :
    keys T (.node p v l r) = (T.key v).toList ++ keys T l ++ keys T r := by
  cases hv : T.key v <;> simp [keys, entries_node, hv]

theorem Wf.isPrefix_of_mem_keys {k e : List Bool} {t : Tree β} (h : Wf T k t)
    (he : e ∈ keys T t) : k <+: e := by
  obtain ⟨x, hx⟩ := mem_keys.mp he
  exact (h.key_isPrefix hx).1

theorem Wf.keys_eq_nil {k : List Bool} {t : Tree β} (h : Wf T k t) : keys T t = [] ↔ t = .nil := by
  constructor
  · intro hnil
    by_contra hne
    obtain ⟨e, he⟩ := h.exists_entry hne
    have : e.1 ∈ keys T t := List.mem_map_of_mem he
    simp [hnil] at this
  · rintro rfl
    rfl

/-- The string of a node is the longest one that all keys from the node on begin with. -/
theorem isPrefix_node {K key : List Bool} {p : Ptr} {v : β} {l r : Tree β}
    (hown : ∀ e, T.key v = some e → e = key) (hglue : T.key v = none → l ≠ .nil ∧ r ≠ .nil)
    (hl : Wf T (key ++ [false]) l) (hr : Wf T (key ++ [true]) r)
    (hK : ∀ e ∈ keys T (.node p v l r), K <+: e) : K <+: key := by
  have hmem : ∀ e, e ∈ (T.key v).toList ∨ e ∈ keys T l ∨ e ∈ keys T r → K <+: e := by
    intro e he
    refine hK e ?_
    rw [keys_node]
    simpa using he
  cases hv : T.key v with
  | some e =>
    rw [← hown e hv]
    exact hmem e (.inl (by simp [hv]))
  | none =>
    obtain ⟨hl0, hr0⟩ := hglue hv
    obtain ⟨a, ha⟩ := List.exists_mem_of_ne_nil _ (mt hl.keys_eq_nil.mp hl0)
    obtain ⟨b, hb⟩ := List.exists_mem_of_ne_nil _ (mt hr.keys_eq_nil.mp hr0)
    have hKa := hmem a (.inr (.inl ha))
    have hKb := hmem b (.inr (.inr hb))
    rcases Nat.lt_or_ge key.length K.length with hlt | hge
    · have hfa : key ++ [false] <+: K :=
        List.prefix_of_prefix_length_le (hl.isPrefix_of_mem_keys ha) hKa (by
          rw [List.length_append, List.length_singleton]
          exact hlt)
      have hfb : key ++ [true] <+: K :=
        List.prefix_of_prefix_length_le (hr.isPrefix_of_mem_keys hb) hKb (by
          rw [List.length_append, List.length_singleton]
          exact hlt)
      exact absurd hfb (not_both_snoc_isPrefix hfa)
    · exact List.prefix_of_prefix_length_le hKa
        ((List.prefix_append _ _).trans (hl.isPrefix_of_mem_keys ha)) hge

/-- Below a node the keys on a side are those that go on with the side's bit. -/
theorem mem_keys_side {key e : List Bool} {p : Ptr} {v : β} {l r : Tree β}
    (hown : ∀ e, T.key v = some e → e = key) (hl : Wf T (key ++ [false]) l)
    (hr : Wf T (key ++ [true]) r) :
    (e ∈ keys T l ↔ e ∈ keys T (.node p v l r) ∧ key ++ [false] <+: e) ∧
      (e ∈ keys T r ↔ e ∈ keys T (.node p v l r) ∧ key ++ [true] <+: e) ∧
      (T.key v = some e ↔ e ∈ keys T (.node p v l r) ∧ e = key) := by
  have hlong : ∀ b, ¬ key ++ [b] <+: key := by
    intro b hb
    have := hb.length_le
    simp at this
  rw [keys_node]
  simp only [List.mem_append, Option.mem_toList]
  refine ⟨⟨fun he => ⟨.inl (.inr he), hl.isPrefix_of_mem_keys he⟩, ?_⟩,
    ⟨fun he => ⟨.inr he, hr.isPrefix_of_mem_keys he⟩, ?_⟩,
    ⟨fun he => ⟨.inl (.inl he), hown e he⟩, ?_⟩⟩
  · rintro ⟨(he | he) | he, hpre⟩
    · exact absurd (hown e he ▸ hpre) (hlong false)
    · exact he
    · exact absurd (hr.isPrefix_of_mem_keys he) (not_both_snoc_isPrefix hpre)
  · rintro ⟨(he | he) | he, hpre⟩
    · exact absurd (hown e he ▸ hpre) (hlong true)
    · exact absurd (hl.isPrefix_of_mem_keys he) (not_both_snoc_isPrefix hpre)
    · exact he
  · rintro ⟨(he | he) | he, rfl⟩
    · exact he
    · exact absurd (hl.isPrefix_of_mem_keys he) (hlong false)
    · exact absurd (hr.isPrefix_of_mem_keys he) (hlong true)

/-- Tries with the same keys have the same shape, wherever their cells lie. -/
theorem Wf.outline_eq {k k' : List Bool} {t : Tree β} {t' : Tree δ} (h : Wf T k t)
    (h' : Wf T' k' t') (hkeys : ∀ e, e ∈ keys T t ↔ e ∈ keys T' t') :
    outline T t = outline T' t' := by
  induction h generalizing k' t' with
  | nil =>
    have hnil : keys T' t' = [] := List.eq_nil_iff_forall_not_mem.mpr fun e he => by
      simpa using (hkeys e).mpr he
    rw [h'.keys_eq_nil.mp hnil]
    rfl
  | @node k key p v l r h1 h2 h3 h4 hl hr ihl ihr =>
    cases h' with
    | nil =>
      have hnil : keys T (.node p v l r) = [] := List.eq_nil_iff_forall_not_mem.mpr fun e he => by
        simpa using (hkeys e).mp he
      cases (Wf.node h1 h2 h3 h4 hl hr).keys_eq_nil.mp hnil
    | @node _ key' p' v' l' r' h1' h2' h3' h4' hl' hr' =>
      have hself : Wf T key (.node p v l r) := .node (List.prefix_refl _) h2 h3 h4 hl hr
      have hself' : Wf T' key' (.node p' v' l' r') := .node (List.prefix_refl _) h2' h3' h4' hl' hr'
      have hle : key' <+: key := isPrefix_node h3 h4 hl hr fun e he =>
        hself'.isPrefix_of_mem_keys ((hkeys e).mp he)
      have hge : key <+: key' := isPrefix_node h3' h4' hl' hr' fun e he =>
        hself.isPrefix_of_mem_keys ((hkeys e).mpr he)
      obtain rfl : key = key' := hge.eq_of_length (Nat.le_antisymm hge.length_le hle.length_le)
      have hkey : T.key v = T'.key v' := Option.ext fun e => by
        rw [(mem_keys_side (p := p) h3 hl hr).2.2, (mem_keys_side (p := p') h3' hl' hr').2.2,
          hkeys]
      have hlen : T.len v = T'.len v' := h2.symm.trans h2'
      have hleft := ihl hl' fun e => by
        rw [(mem_keys_side (p := p) h3 hl hr).1, (mem_keys_side (p := p') h3' hl' hr').1, hkeys]
      have hright := ihr hr' fun e => by
        rw [(mem_keys_side (p := p) h3 hl hr).2.1, (mem_keys_side (p := p') h3' hl' hr').2.1,
          hkeys]
      simp only [outline, outline_node] at hleft hright ⊢
      rw [hkey, hlen, hleft, hright]

end Trie

end OpxCommonUtils
