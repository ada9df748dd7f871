import OpxCommonUtils.Misc.LinkTree

/-!
# Editing linked trees

What has to be shown of a heap for it to hold a tree after one of the usual edits: a payload is
overwritten, a leaf is attached or detached, a cell is put above a subtree or gives its place to
its only child. All of them are cases of `Holds.relink`: cells far from the edit are the same,
and of a subtree only the root cell knows what is above it.
-/

namespace OpxCommonUtils.LinkTree

open Tree

variable {N β : Type} [NodeLayout N β]

/-- Only the root cell of a tree knows what is above it. -/
theorem Rep.reparent {h h' : Heap N} {par par' : Ptr} {t : Tree β} (ht : Rep h par t)
    (hnd : t.ptrs.Nodup)
    (hroot : ∀ p v l r, t = .node p v l r →
      h'.get p = some (NodeLayout.cell (l.root (nul N)) (r.root (nul N)) par' v))
    (hsame : ∀ q ∈ t.ptrs, q ≠ t.root (nul N) → h'.get q = h.get q) : Rep h' par' t := by
  cases t with
  | nil => trivial
  | node p v l r =>
    obtain ⟨hp, -, hl, hr⟩ := ht
    simp only [ptrs, List.nodup_cons, List.mem_append, not_or] at hnd
    have hne : ∀ q ∈ l.ptrs ++ r.ptrs, q ≠ p := by
      rintro q hq rfl
      exact (List.mem_append.mp hq).elim hnd.1.1 hnd.1.2
    refine ⟨hp, hroot p v l r rfl, (rep_congr fun q hq => ?_).mpr hl,
      (rep_congr fun q hq => ?_).mpr hr⟩
    · exact hsame q (by simp [ptrs, hq]) (hne q (by simp [hq]))
    · exact hsame q (by simp [ptrs, hq]) (hne q (by simp [hq]))

/-- Only the innermost cell of a context knows the address of the hole. -/
theorem CtxRep.redirect {h h' : Heap N} {hole hole' : Ptr} {c : List (Frame β)}
    (hc : CtxRep h hole c) (hnd : (Ctx.ptrs c).Nodup)
    (htop : ∀ f d, c = f :: d →
      h'.get f.ptr =
        some (mkSide f.side hole' (f.sib.root (nul N)) (Ctx.top (nul N) d) f.val))
    (hsame : ∀ q ∈ Ctx.ptrs c, q ≠ Ctx.top (nul N) c → h'.get q = h.get q) :
    CtxRep h' hole' c := by
  cases c with
  | nil => trivial
  | cons f c =>
    obtain ⟨hp, -, hsib, hc⟩ := hc
    simp only [Ctx.ptrs_cons, List.nodup_cons, List.mem_append, not_or] at hnd
    have hne : ∀ q ∈ f.sib.ptrs ++ Ctx.ptrs c, q ≠ f.ptr := by
      rintro q hq rfl
      exact (List.mem_append.mp hq).elim hnd.1.1 hnd.1.2
    refine ⟨hp, htop f c rfl, (rep_congr fun q hq => ?_).mpr hsib,
      (ctxRep_congr fun q hq => ?_).mpr hc⟩
    · exact hsame q (by simp [hq]) (hne q (by simp [hq]))
    · exact hsame q (by simp [hq]) (hne q (by simp [hq]))

/-- Above the hole nothing but the innermost cell has to change when the content is replaced. -/
theorem Holds.relink {h : Heap N} (h' : Heap N) {root : Ptr} {c : List (Frame β)} {t : Tree β}
  (t' : Tree β)
    (ht : Holds h root (plug c t)) (hrep : Rep h' (Ctx.top (nul N) c) t')
    (hnd : t'.ptrs.Nodup) (hdisj : List.Disjoint t'.ptrs (Ctx.ptrs c))
    (htop : ∀ f d, c = f :: d → h'.get f.ptr =
      some (mkSide f.side (t'.root (nul N)) (f.sib.root (nul N)) (Ctx.top (nul N) d) f.val))
    (hsame : ∀ q ∈ Ctx.ptrs c, q ≠ Ctx.top (nul N) c → h'.get q = h.get q) :
    Holds h' (if c = [] then t'.root (nul N) else root) (plug c t') := by
  have hcnd := ((nodup_plug c t).mp ht.nodup).2.1
  refine ⟨?_, ?_, (nodup_plug c t').mpr ⟨hnd, hcnd, hdisj⟩⟩
  · cases c with
    | nil => rfl
    | cons f c =>
      rw [if_neg (by simp), ht.root_eq, root_plug_cons]
  · exact (rep_plug h' c t').mpr
      ⟨((rep_plug h c t).mp ht.rep).1.redirect hcnd htop hsame, hrep⟩

/-- The payload of a cell is changed in place. -/
theorem Holds.setVal {h : Heap N} {root : Ptr} {c : List (Frame β)} {p : Ptr} {v : β}
    {l r : Tree β} (ht : Holds h root (plug c (.node p v l r))) (v' : β) :
    Holds (h.set p (NodeLayout.cell (l.root (nul N)) (r.root (nul N)) (Ctx.top (nul N) c) v'))
      root (plug c (.node p v' l r)) := by
  obtain ⟨hnd, hcnd, hdisj⟩ := (nodup_plug _ _).mp ht.nodup
  obtain ⟨hc, hp, hget, hl, hr⟩ := (rep_plug h c _).mp ht.rep
  have hnd' := hnd
  simp only [ptrs, List.nodup_cons, List.mem_append, not_or] at hnd'
  have hpc : p ∉ Ctx.ptrs c := fun hmem => hdisj (by simp [ptrs]) hmem
  refine ⟨?_, (rep_plug _ c _).mpr ⟨(ctxRep_set hpc).mpr hc, hp, by simp, (rep_set hnd'.1.1).mpr hl,
    (rep_set hnd'.1.2).mpr hr⟩, (nodup_plug _ _).mpr ⟨hnd, hcnd, hdisj⟩⟩
  rw [ht.root_eq]
  cases c with
  | nil => rfl
  | cons f c => exact root_plug_cons _ f c _ _

/-- A new leaf is put into an empty place. -/
theorem Holds.attach {h : Heap N} {root : Ptr} {f : Frame β} {c : List (Frame β)}
    (ht : Holds h root (plug (f :: c) .nil)) {p : Ptr} (hp : p ≠ nul N) (hfree : h.get p = none)
    (v : β) :
    Holds ((h.set p (NodeLayout.cell (nul N) (nul N) f.ptr v)).set f.ptr
        (mkSide f.side p (f.sib.root (nul N)) (Ctx.top (nul N) c) f.val))
      root (plug (f :: c) (.node p v .nil .nil)) := by
  have hmem : p ∉ (plug (f :: c) .nil).ptrs := ht.not_mem hfree
  simp only [mem_ptrs_plug, ptrs, List.not_mem_nil, false_or, Ctx.ptrs_cons, List.mem_cons,
    List.mem_append, not_or] at hmem
  obtain ⟨hpf, hps, hpc⟩ := hmem
  have hrel := ht.relink ((h.set p (NodeLayout.cell (nul N) (nul N) f.ptr v)).set f.ptr
        (mkSide f.side p (f.sib.root (nul N)) (Ctx.top (nul N) c) f.val)) (.node p v .nil .nil)
    ⟨hp, by rw [Heap.get_set_ne _ _ hpf]; simp, trivial, trivial⟩ (by simp [ptrs])
    (by simp [ptrs, hpf, hps, hpc]) ?_ ?_
  · rwa [if_neg (by simp)] at hrel
  · rintro g d heq
    obtain ⟨rfl, rfl⟩ := List.cons.inj heq
    simp
  · intro q hq hne
    have hqp : q ≠ p := by
      rintro rfl
      simp [hpf, hps, hpc] at hq
    rw [Ctx.top_cons] at hne
    rw [Heap.get_set_ne _ _ hne, Heap.get_set_ne _ _ hqp]

/-- A new cell is put above a subtree, with `o` on its other side. -/
theorem Holds.graft {h h' : Heap N} {root : Ptr} {c : List (Frame β)} {p pn : Ptr} {v vn : β}
    {l r o : Tree β} {s : Side} (ht : Holds h root (plug c (.node p v l r))) (hpn : pn ≠ nul N)
    (hout : pn ∉ (plug c (.node p v l r)).ptrs) (ho : Rep h' pn o)
    (hond : o.ptrs.Nodup) (hodisj : ∀ q ∈ o.ptrs, q ≠ pn ∧ q ∉ (plug c (.node p v l r)).ptrs)
    (hget : h'.get p = some (NodeLayout.cell (l.root (nul N)) (r.root (nul N)) pn v))
    (hnew : h'.get pn = some (mkSide s p (o.root (nul N)) (Ctx.top (nul N) c) vn))
    (htop : ∀ f d, c = f :: d → h'.get f.ptr =
      some (mkSide f.side pn (f.sib.root (nul N)) (Ctx.top (nul N) d) f.val))
    (hsame : ∀ q ∈ (plug c (.node p v l r)).ptrs, q ≠ p → q ≠ Ctx.top (nul N) c →
      h'.get q = h.get q) :
    Holds h' (if c = [] then pn else root) (plug c (join s pn vn (.node p v l r) o)) := by
  obtain ⟨hnd, hcnd, hdisj⟩ := (nodup_plug _ _).mp ht.nodup
  obtain ⟨hc, hrep⟩ := (rep_plug h c _).mp ht.rep
  have hout' : pn ∉ (node p v l r).ptrs ∧ pn ∉ Ctx.ptrs c := by
    rwa [mem_ptrs_plug, not_or] at hout
  have hpc : ∀ q ∈ (node p v l r).ptrs, q ≠ Ctx.top (nul N) c := by
    rintro q hq rfl
    cases c with
    | nil => exact (ht.rep.live _ (by rwa [plug_nil])).1 rfl
    | cons f c => exact hdisj hq (by simp)
  have hrel := ht.relink h' (join s pn vn (.node p v l r) o) ?_ ?_ ?_ ?_ ?_
  · rwa [root_join] at hrel
  · refine (rep_join ..).mpr ⟨hpn, hnew, hrep.reparent hnd ?_ ?_, ho⟩
    · rintro p' v' l' r' heq
      obtain ⟨rfl, rfl, rfl, rfl⟩ := Tree.node.inj heq
      exact hget
    · intro q hq hne
      exact hsame q ((mem_ptrs_plug ..).mpr (.inl hq)) hne (hpc q hq)
  · refine (ptrs_join_perm ..).nodup_iff.mpr (List.nodup_cons.mpr ⟨?_, ?_⟩)
    · rw [List.mem_append, not_or]
      exact ⟨hout'.1, fun hmem => (hodisj pn hmem).1 rfl⟩
    · refine hnd.append hond fun q hq hqo => (hodisj q hqo).2 ?_
      exact (mem_ptrs_plug ..).mpr (.inl hq)
  · intro q hq hqc
    rcases (mem_ptrs_join ..).mp hq with rfl | hq | hq
    · exact hout'.2 hqc
    · exact hdisj hq hqc
    · exact (hodisj q hq).2 ((mem_ptrs_plug ..).mpr (.inr hqc))
  · intro f d heq
    rw [root_join]
    exact htop f d heq
  · intro q hq hne
    refine hsame q ((mem_ptrs_plug ..).mpr (.inr hq)) ?_ hne
    rintro rfl
    exact hdisj (by simp [ptrs]) hq

/-- A leaf is taken off. -/
theorem Holds.detach {h : Heap N} {root : Ptr} {f : Frame β} {c : List (Frame β)} {p : Ptr}
    {v : β} (ht : Holds h root (plug (f :: c) (.node p v .nil .nil))) :
    Holds ((h.erase p).set f.ptr
        (mkSide f.side (nul N) (f.sib.root (nul N)) (Ctx.top (nul N) c) f.val))
      root (plug (f :: c) .nil) := by
  obtain ⟨-, -, hdisj⟩ := (nodup_plug _ _).mp ht.nodup
  have hrel := ht.relink ((h.erase p).set f.ptr
      (mkSide f.side (nul N) (f.sib.root (nul N)) (Ctx.top (nul N) c) f.val)) .nil
    trivial (by simp [ptrs]) (by simp [ptrs]) ?_ ?_
  · rwa [if_neg (by simp)] at hrel
  · rintro g d heq
    obtain ⟨rfl, rfl⟩ := List.cons.inj heq
    simp
  · intro q hq hne
    have hqp : q ≠ p := by
      rintro rfl
      exact hdisj (by simp [ptrs]) hq
    rw [Ctx.top_cons] at hne
    rw [Heap.get_set_ne _ _ hne, Heap.get_erase_ne _ hqp]

/-- A cell with one child at most gives its place to the child. -/
theorem Holds.promote {h h' : Heap N} {root : Ptr} {c : List (Frame β)} {p : Ptr} {v : β}
    {t : Tree β} {s : Side} (ht : Holds h root (plug c (join s p v t .nil)))
    (hget : ∀ q w l r, t = .node q w l r → h'.get q =
      some (NodeLayout.cell (l.root (nul N)) (r.root (nul N)) (Ctx.top (nul N) c) w))
    (htop : ∀ f d, c = f :: d → h'.get f.ptr =
      some (mkSide f.side (t.root (nul N)) (f.sib.root (nul N)) (Ctx.top (nul N) d) f.val))
    (hsame : ∀ x, x ≠ nul N → x ≠ p → x ≠ t.root (nul N) → x ≠ Ctx.top (nul N) c →
      h'.get x = h.get x) :
    Holds h' (if c = [] then t.root (nul N) else root) (plug c t) := by
  obtain ⟨hnd, hcnd, hdisj⟩ := (nodup_plug _ _).mp ht.nodup
  obtain ⟨hc, hrep⟩ := (rep_plug h c _).mp ht.rep
  obtain ⟨hp, -, htrep, -⟩ := (rep_join ..).mp hrep
  have hnd' := (ptrs_join_perm ..).nodup_iff.mp hnd
  simp only [List.nodup_cons, List.append_nil, ptrs_nil] at hnd'
  have hnode : ∀ x ∈ t.ptrs, x ∉ Ctx.ptrs c := fun x hx hxc =>
    hdisj ((mem_ptrs_join ..).mpr (.inr (.inl hx))) hxc
  have hpc : p ∉ Ctx.ptrs c := fun hmem => hdisj (by simp) hmem
  have hxc : ∀ x ∈ t.ptrs, x ≠ Ctx.top (nul N) c := by
    rintro x hx rfl
    cases c with
    | nil => exact (htrep.live _ hx).1 rfl
    | cons f c => exact hnode _ hx (by simp)
  refine ht.relink _ _ ?_ hnd'.2 (fun x hx => hnode x hx) htop ?_
  · refine htrep.reparent hnd'.2 hget fun x hx hne => ?_
    refine hsame x (htrep.live x hx).1 ?_ hne (hxc x hx)
    rintro rfl
    exact hnd'.1 hx
  · intro x hx hne
    refine hsame x (hc.live x hx).1 ?_ ?_ hne
    · rintro rfl
      exact hpc hx
    · intro heq
      cases t with
      | nil => exact (hc.live x hx).1 heq
      | node q w l r => exact hnode x (by simp [ptrs, heq]) hx

/-- A cell from outside takes the place and the links of a cell. -/
theorem Holds.exchange {h h' : Heap N} {root : Ptr} {c : List (Frame β)} {y z : Ptr} {v w : β}
    {l r : Tree β} (ht : Holds h root (plug c (.node z v l r))) (hy : y ≠ nul N)
    (hout : y ∉ (plug c (.node z v l r)).ptrs)
    (hget : h'.get y =
      some (NodeLayout.cell (l.root (nul N)) (r.root (nul N)) (Ctx.top (nul N) c) w))
    (hbelow : ∀ t, t = l ∨ t = r → ∀ q u a b, t = .node q u a b →
      h'.get q = some (NodeLayout.cell (a.root (nul N)) (b.root (nul N)) y u))
    (htop : ∀ f d, c = f :: d → h'.get f.ptr =
      some (mkSide f.side y (f.sib.root (nul N)) (Ctx.top (nul N) d) f.val))
    (hsame : ∀ x ∈ (plug c (.node z v l r)).ptrs, x ≠ l.root (nul N) → x ≠ r.root (nul N) →
      x ≠ Ctx.top (nul N) c → h'.get x = h.get x) :
    Holds h' (if c = [] then y else root) (plug c (.node y w l r)) := by
  obtain ⟨hnd, hcnd, hdisj⟩ := (nodup_plug _ _).mp ht.nodup
  obtain ⟨hc, hz, -, hl, hr⟩ := (rep_plug h c _).mp ht.rep
  simp only [ptrs, List.nodup_cons, List.mem_append, not_or, List.nodup_append'] at hnd
  obtain ⟨⟨hzl, hzr⟩, hlnd, hrnd, hlr⟩ := hnd
  simp only [mem_ptrs_plug, ptrs, List.mem_cons, List.mem_append, not_or] at hout
  obtain ⟨⟨-, hyl, hyr⟩, hyc⟩ := hout
  have hin : ∀ x, x ∈ l.ptrs ∨ x ∈ r.ptrs → x ∉ Ctx.ptrs c := fun x hx =>
    hdisj (by simpa [ptrs] using .inr hx)
  have htopne : ∀ x, x ∈ l.ptrs ∨ x ∈ r.ptrs → x ≠ Ctx.top (nul N) c := by
    rintro x hx rfl
    cases c with
    | nil => exact hx.elim (fun hx => (hl.live _ hx).1 rfl) fun hx => (hr.live _ hx).1 rfl
    | cons f c => exact hin _ hx (by simp)
  have hmem : ∀ x, x ∈ l.ptrs ∨ x ∈ r.ptrs → x ∈ (plug c (.node z v l r)).ptrs := fun x hx =>
    (mem_ptrs_plug ..).mpr (.inl (by simpa [ptrs] using .inr hx))
  have hroot : ∀ (t : Tree β) x, x ≠ nul N → x ∉ t.ptrs → x ≠ t.root (nul N) := by
    rintro t x hx hxt rfl
    exact hxt (root_mem_ptrs _ fun hnil => hx (by rw [hnil, root_nil]))
  refine ht.relink _ (.node y w l r) ⟨hy, hget, ?_, ?_⟩ ?_ ?_ htop ?_
  · refine hl.reparent hlnd (hbelow l (.inl rfl)) fun x hx hne => ?_
    exact hsame x (hmem x (.inl hx)) hne (hroot r x (hl.live x hx).1 fun hxr => hlr hx hxr)
      (htopne x (.inl hx))
  · refine hr.reparent hrnd (hbelow r (.inr rfl)) fun x hx hne => ?_
    exact hsame x (hmem x (.inr hx)) (hroot l x (hr.live x hx).1 fun hxl => hlr hxl hx) hne
      (htopne x (.inr hx))
  · simp only [ptrs, List.nodup_cons, List.mem_append, not_or, List.nodup_append']
    exact ⟨⟨hyl, hyr⟩, hlnd, hrnd, hlr⟩
  · intro x hx hxc
    simp only [ptrs, List.mem_cons, List.mem_append] at hx
    rcases hx with rfl | hx
    · exact hyc hxc
    · exact hin x hx hxc
  · intro x hx hne
    have hxn := (hc.live x hx).1
    exact hsame x ((mem_ptrs_plug ..).mpr (.inr hx))
      (hroot l x hxn fun hxl => hin x (.inl hxl) hx) (hroot r x hxn fun hxr => hin x (.inr hxr) hx)
      hne

/-- A rotation to side `s`: the child of `x` on the other side comes up and hands its own child
on side `s` to `x`. -/
theorem Holds.rotate {h h' : Heap N} {root : Ptr} {c : List (Frame β)} {s : Side} {x y : Ptr}
    {vx vy : β} {a b d : Tree β} (ht : Holds h root (plug c (join s x vx a (join s y vy b d))))
    (hx : h'.get x = some (mkSide s (a.root (nul N)) (b.root (nul N)) y vx))
    (hy : h'.get y = some (mkSide s x (d.root (nul N)) (Ctx.top (nul N) c) vy))
    (hb : ∀ p v l r, b = .node p v l r →
      h'.get p = some (NodeLayout.cell (l.root (nul N)) (r.root (nul N)) x v))
    (htop : ∀ f e, c = f :: e → h'.get f.ptr =
      some (mkSide f.side y (f.sib.root (nul N)) (Ctx.top (nul N) e) f.val))
    (hsame : ∀ q, q ≠ x → q ≠ y → q ≠ b.root (nul N) → q ≠ Ctx.top (nul N) c →
      h'.get q = h.get q) :
    Holds h' (if c = [] then y else root) (plug c (join s y vy (join s x vx a b) d)) := by
  obtain ⟨hnd, hcnd, hdisj⟩ := (nodup_plug _ _).mp ht.nodup
  obtain ⟨-, hrep⟩ := (rep_plug h c _).mp ht.rep
  obtain ⟨hxn, -, ha, hyrep⟩ := (rep_join ..).mp hrep
  obtain ⟨hyn, -, hbrep, hd⟩ := (rep_join ..).mp hyrep
  have hperm : (join s y vy (join s x vx a b) d).ptrs.Perm
      (join s x vx a (join s y vy b d)).ptrs := ptrs_perm_of_ino_eq (ino_rotate ..)
  have hnd' := (ptrs_join_perm ..).nodup_iff.mp hnd
  have hxnd := List.nodup_cons.mp hnd'
  obtain ⟨hand, hynd, hay⟩ := List.nodup_append'.mp hxnd.2
  have hynd' := List.nodup_cons.mp ((ptrs_join_perm ..).nodup_iff.mp hynd)
  obtain ⟨hbnd, hdnd, hbd⟩ := List.nodup_append'.mp hynd'.2
  simp only [List.mem_append, mem_ptrs_join, not_or] at hxnd hynd'
  have htopout : ∀ q ∈ (join s x vx a (join s y vy b d)).ptrs, q ≠ Ctx.top (nul N) c := by
    rintro q hq rfl
    cases c with
    | nil => exact (hrep.live _ hq).1 rfl
    | cons f c => exact hdisj hq (by simp)
  have hbroot : ∀ q, q ∉ b.ptrs → q ≠ nul N → q ≠ b.root (nul N) := by
    rintro q hqb hqn rfl
    cases b with
    | nil => exact hqn rfl
    | node p v l r => exact hqb (by simp [ptrs])
  -- the subtrees `a` and `d` are where they were
  have hout : ∀ q, q ∈ a.ptrs ∨ q ∈ d.ptrs → h'.get q = h.get q := by
    intro q hq
    have hmem : q ∈ (join s x vx a (join s y vy b d)).ptrs := by
      rcases hq with hq | hq <;> simp [hq]
    have hqb : q ∉ b.ptrs := by
      rcases hq with hq | hq
      · exact fun hqb => hay hq (by simp [hqb])
      · exact fun hqb => hbd hqb hq
    refine hsame q ?_ ?_ (hbroot q hqb (hrep.live q hmem).1) (htopout q hmem)
    · rintro rfl
      rcases hq with hq | hq
      · exact hxnd.1.1 hq
      · exact hxnd.1.2.2.2 hq
    · rintro rfl
      rcases hq with hq | hq
      · exact hay hq (by simp)
      · exact hynd'.1.2 hq
  have hrel := ht.relink h' (join s y vy (join s x vx a b) d) ?_ ?_ ?_ ?_ ?_
  · rwa [root_join] at hrel
  · refine (rep_join ..).mpr ⟨hyn, by rwa [root_join], (rep_join ..).mpr ⟨hxn, hx, ?_, ?_⟩, ?_⟩
    · exact (rep_congr fun q hq => hout q (.inl hq)).mpr ha
    · refine hbrep.reparent hbnd hb fun q hq hne => ?_
      have hmem : q ∈ (join s x vx a (join s y vy b d)).ptrs := by simp [hq]
      refine hsame q ?_ ?_ hne (htopout q hmem)
      · rintro rfl
        exact hxnd.1.2.2.1 hq
      · rintro rfl
        exact hynd'.1.1 hq
    · exact (rep_congr fun q hq => hout q (.inr hq)).mpr hd
  · exact hperm.nodup_iff.mpr hnd
  · exact fun q hq hqc => hdisj (hperm.mem_iff.mp hq) hqc
  · intro f e heq
    rw [root_join]
    exact htop f e heq
  · intro q hq hne
    have hqt : q ∉ (join s x vx a (join s y vy b d)).ptrs := fun hmem => hdisj hmem hq
    simp only [mem_ptrs_join, not_or] at hqt
    obtain ⟨f, e, rfl⟩ : ∃ f e, c = f :: e := by
      cases c with
      | nil => simp at hq
      | cons f e => exact ⟨f, e, rfl⟩
    have hqn : q ≠ nul N :=
      (ht.live ((mem_ptrs_plug ..).mpr (.inr hq))).1
    exact hsame q hqt.1 hqt.2.2.1 (hbroot q hqt.2.2.2.1 hqn) hne

end OpxCommonUtils.LinkTree
