import OpxCommonUtils.Radix.Proofs.WalkSteps

/-!
# The user's calls around and inside a version walk

Insertion, removal and appending keep `WalkOk`, whether they are called outside all walks or from
the callback of one: there a removal only marks the visited node, and an insertion finds the node
of its prefix, so that the tree under the walker stays.
-/

namespace OpxCommonUtils.Radix

open Tree Trie LinkTree RtTable

variable {rtt : RtTable} {t : Tree RtVal}

/-- Memory of heads may change where the table does not look. -/
theorem WalkOk.of_heads {s : TableState} (h : WalkOk s t) {rtt' : RtTable}
    (hnodes : rtt'.nodes = s.rtt.nodes) (hroot : rtt'.rttRoot = s.rtt.rttRoot)
    (hdebug : rtt'.rttDebug = s.rtt.rttDebug)
    (hheads : ∀ x, (rtt'.heads x).rthRtn = (s.rtt.heads x).rthRtn ∧
      (rtt'.heads x).rdxRthAddr = (s.rtt.heads x).rdxRthAddr) :
    WalkOk { s with rtt := rtt' } t where
  shape := by
    refine h.shape.of_heads (fun q => by rw [hnodes]) hroot fun x hx h0 => ?_
    rw [(hheads _).1, (hheads _).2]
    exact h.shape.keeps_self x hx h0
  plain := hdebug.trans h.plain
  placed := h.placed

/-- The head of a node, and the node of a head. -/
theorem Shape.headOf (hs : Shape rtt t) {rn rth : Ptr} (h : HeadOf rtt rn rth) :
    ∃ c v l r, plug c (.node rn v l r) = t ∧ v.rth = rth ∧ rth ≠ NULL ∧
      (rtt.heads rth).rthRtn = rn := by
  obtain ⟨h0, n, hn, hrth⟩ := h
  obtain ⟨c, v, l, r, heq, rfl⟩ := hs.locate hn
  have hv : v.rth = rth := hrth
  refine ⟨c, v, l, r, heq, hv, h0, ?_⟩
  have hrtn := (hs.linked (rn, v) (mem_of_plug heq)).rtn (hv.trans_ne h0)
  rwa [hv] at hrtn

/-! ## Insertion -/

/-- Addresses that agree on the bytes of a key agree on its bits. -/
theorem firstBits_eq_of_memDiffer {a b : Addr} {n : Nat} (hn : n ≤ rtt.rttMaxaddrlen)
    (h : memDiffer a b rtt.keyBytes = false) :
    firstBits (bitAt a) n = firstBits (bitAt b) n := by
  rw [memDiffer_eq_false] at h
  refine firstBits_eq_iff.mpr fun i hi => ?_
  unfold bitAt
  rw [h (i / 8) (by unfold RtTable.keyBytes; omega)]

/-- The table with the key `K` of the head `rth` prepared. -/
structure Prepared (rtt rtt₀ : RtTable) (t : Tree RtVal) (rth : Ptr) (K : List Bool) (n : Nat) :
    Prop where
  shape : Shape rtt₀ t
  only : ∃ hd, hd.rthRtn = (rtt.heads rth).rthRtn ∧ rtt₀ = rtt.setHead rth hd
  key : ∃ a, (rtt₀.heads rth).rdxRthAddr = some a ∧ firstBits (bitAt a) n = K
  entries : entries (view rtt₀.heads) t = Trie.entries (view rtt.heads) t
  own : ∀ x ∈ t.pre, x.2.rth = rth → (K, x) ∈ Trie.entries (view rtt₀.heads) t ∧
    rdxTestBit x.2.flags RDX_RN_DELE_BIT = false

/-- A key that gets prepared is the one of the user's address, and the table stays as it is. -/
theorem Shape.prepareKey_spec (hs : Shape rtt t) (copyOk : Bool) {rth : Ptr} {addr : Addr} {n : Nat}
    (h0 : rth ≠ NULL) (haddr : (rtt.heads rth).rthAddr = some addr) (hn : n ≤ rtt.rttMaxaddrlen)
    (hown : ∀ x ∈ t.pre, x.2.rth = rth → x.2.marked = false ∧ x.2.bit = n ∧
      (view rtt.heads).key x.2 = some (firstBits (bitAt (rtt.queryAddr addr)) n)) :
    Ensures (rtt.prepareKey copyOk rth) fun res => res = (false, rtt) ∨ (res.1 = true ∧
      Prepared rtt res.2 t rth (firstBits (bitAt (rtt.queryAddr addr)) n) n) := by
  cases hconv : rtt.rttConvert with
  | none =>
    have hquery : rtt.queryAddr addr = addr := by rw [queryAddr, hconv]
    rw [hquery] at hown ⊢
    have hkeep := hs.keeps_address (n := n) fun x hx hxr => mem_entries.mpr ⟨hx, (hown x hx hxr).2.2⟩
    rw [Shape.prepareKey_plain rtt copyOk hconv h0 haddr]
    refine ensures_ok.mpr (.inr ⟨rfl, hs.of_heads (fun _ => rfl) rfl hkeep, ⟨_, ?_, rfl⟩,
      ⟨addr, by rw [RtTable.heads_setHead, if_pos rfl], rfl⟩, hkeep.entries, fun x hx hxr => ?_⟩)
    · rfl
    obtain ⟨hm, -, hkey⟩ := hown x hx hxr
    dsimp only
    rw [hkeep.entries]
    exact ⟨mem_entries.mpr ⟨hx, hkey⟩, hm⟩
  | some convert =>
    have hquery : rtt.queryAddr addr = convert addr rtt.rttMaxaddrlen := by rw [queryAddr, hconv]
    rw [hquery] at hown ⊢
    rw [prepareKey, readHead, if_neg h0, exec_bind_ok, hconv, haddr]
    dsimp only
    cases hrdx : (rtt.heads rth).rdxRthAddr with
    | none =>
      dsimp only
      -- a head without a stored key is in no node
      have hout : ∀ x ∈ t.pre, x.2.rth = rth → rth = NULL := by
        intro x hx hxr
        obtain ⟨a, ha⟩ := (hs.linked x hx).addr (hxr.trans_ne h0)
        rw [hxr, hrdx] at ha
        cases ha
      cases copyOk with
      | false => exact ensures_ok.mpr (.inl rfl)
      | true =>
        have hkeep := hs.keeps_setHead { rtt.heads rth with
          rthAddr := some addr
          rdxRthAddr := some (convert addr rtt.rttMaxaddrlen)
          magic := RT_RTH_ADDR_MAGIC } hout
        refine ensures_ok.mpr (.inr ⟨rfl, hs.of_heads (fun _ => rfl) rfl hkeep, ⟨_, ?_, rfl⟩,
          ⟨_, by rw [RtTable.heads_setHead, if_pos rfl], rfl⟩, hkeep.entries,
          fun x hx hxr => absurd (hout x hx hxr) h0⟩)
        rfl
    | some a =>
      dsimp only
      refine .bind (ensures_assertThat _) fun _ hcheck => ensures_ok.mpr (.inr ⟨rfl, hs,
        ⟨rtt.heads rth, rfl, rtt.setHead_self rth⟩, ⟨a, hrdx, ?_⟩, rfl, fun x hx hxr => ?_⟩)
      · refine firstBits_eq_of_memDiffer hn ?_
        have hagree := (Bool.and_eq_true _ _ ▸ hcheck).2
        exact (Bool.not_eq_true' _ ▸ hagree)
      · obtain ⟨hm, -, hkey⟩ := hown x hx hxr
        exact ⟨mem_entries.mpr ⟨hx, hkey⟩, hm⟩

/-- `std_radix_insert` where the table does not check: it does one of the things listed in
`InsertOutcome`, unless the copy of the key cannot be made. -/
theorem Shape.insert_outcome (hs : Shape rtt t) (A : Malloc RtNode) (copyOk : Bool) {rth : Ptr}
    {addr : Addr} {n : Nat} (hdebug : rtt.rttDebug = false) (h0 : rth ≠ NULL)
    (haddr : (rtt.heads rth).rthAddr = some addr) (hn : n ≤ rtt.rttMaxaddrlen)
    (hown : ∀ x ∈ t.pre, x.2.rth = rth → x.2.marked = false ∧ x.2.bit = n ∧
      (view rtt.heads).key x.2 = some (firstBits (bitAt (rtt.queryAddr addr)) n)) :
    Ensures (rtt.stdRadixInsert A copyOk rth n) fun res => res = (NULL, rtt) ∨
      InsertOutcome rtt t A rth (firstBits (bitAt (rtt.queryAddr addr)) n) n (.ok res) := by
  intro res hres
  obtain ⟨⟨ok, rtt₀⟩, hprep, hrun⟩ := exec_bind_eq_ok.mp hres
  rcases hs.prepareKey_spec copyOk h0 haddr hn hown _ hprep with heq | ⟨hok, hdone⟩
  · obtain ⟨rfl, rfl⟩ := Prod.mk.inj heq
    exact .inl (Except.ok.inj hrun).symm
  · obtain rfl : ok = true := hok
    obtain ⟨hd, -, hrtt₀⟩ := hdone.only
    dsimp only at hrtt₀
    obtain ⟨a, ha, hK⟩ := hdone.key
    have hown₀ := hdone.own
    rw [← hK] at hown₀ ⊢
    rw [Shape.stdRadixInsert_of_prepared A n hprep (hrtt₀ ▸ hdebug)] at hres
    refine .inr (outcome_of_same rtt₀ hdone.entries ?_
      (hres ▸ hdone.shape.insertKey_spec A h0 ha hown₀))
    rw [hrtt₀]
    exact ⟨rfl, rfl, rfl, rfl, rfl, rfl, rfl, rfl, rfl⟩

/-- The change list and the heads that make room, where the table does not check. -/
theorem stdRadixInsert_same (A : Malloc RtNode) (copyOk : Bool) (rth : Ptr) (n : Nat)
    (hdebug : rtt.rttDebug = false) :
    Ensures (rtt.stdRadixInsert A copyOk rth n) fun res =>
      ∃ freed, SameChanges rtt res.2 freed ∧ ∀ x ∈ freed, MarkedHead rtt x := by
  unfold stdRadixInsert
  refine .bind (P := fun r => SameChanges rtt r.2 [] ∧ r.2.nodes = rtt.nodes ∧
    r.2.rttDebug = false) ?_ ?_
  · intro r hr
    refine ⟨rtt.prepareKey_same copyOk rth r hr, ?_⟩
    revert r
    show Ensures _ _
    unfold prepareKey
    refine .bindAny fun hd => ?_
    split
    · split
      · split
        · exact ensures_ok.mpr ⟨rfl, hdebug⟩
        · exact ensures_ok.mpr ⟨rfl, hdebug⟩
      · exact .bindAny fun _ => ensures_ok.mpr ⟨rfl, hdebug⟩
    · exact ensures_error
    · exact ensures_ok.mpr ⟨rfl, hdebug⟩
  · rintro ⟨ok, rtt₀⟩ ⟨hsame, hnodes, hdebug₀⟩
    dsimp only at hsame hnodes hdebug₀ ⊢
    split
    · exact ensures_ok.mpr ⟨[], hsame, by simp⟩
    · rw [debugStart, if_neg (by rw [hdebug₀]; decide), exec_bind_ok]
      simp only [hdebug₀, Bool.false_eq_true, if_false, Bool.false_and]
      refine (rtt₀.insertKey_same A rth n).mono fun r hr => ?_
      obtain ⟨freed, hfreed, hmarked⟩ := hr
      refine ⟨freed, hsame.trans hfreed, fun x hx => ?_⟩
      obtain ⟨h0, q, m, hm, hrest⟩ := hmarked x hx
      exact ⟨h0, q, m, hnodes ▸ hm, hrest⟩

/-- A tree that grows keeps the heads it had, and is placed as before outside walks. -/
theorem Grown.kept {rtt' : RtTable} {t' : Tree RtVal} {rth p : Ptr} {v : RtVal} {n : Nat}
    {K : List Bool} (hg : Grown n rth t t') (hs : Shape rtt t) (hs' : Shape rtt' t')
    (hv : v.rth = rth)
    (hperm : (entries (view rtt'.heads) t').Perm ((K, p, v) :: entries (view rtt.heads) t))
    (hplaced : Placed t .outside) :
    Placed t' .outside ∧ HeadsKept t t' noHead (· = rth) := by
  obtain ⟨hlocks, hmarks⟩ := hplaced
  -- a node with a head is an entry
  have hentry : ∀ {rtt : RtTable} {t : Tree RtVal}, Shape rtt t → ∀ x ∈ t.pre, x.2.rth ≠ NULL →
      ∃ K, (K, x) ∈ entries (view rtt.heads) t := by
    intro rtt t hs x hx h0
    obtain ⟨a, ha⟩ := (hs.linked x hx).addr h0
    exact ⟨_, mem_entries.mpr ⟨hx, key_view_of_addr h0 ha⟩⟩
  refine ⟨⟨fun x hx => ?_, fun x hx h0 => ?_⟩, fun x hx h0 hm _ => ?_, fun y hy h0 => ?_⟩
  · rcases hg.mem_pre hx with hx | ⟨-, ⟨-, hl⟩ | ⟨y, hy, -, hl⟩⟩
    · exact hlocks x hx
    · exact hl
    · exact hl.trans (hlocks y hy)
  · rcases hg.mem_pre hx with hx | ⟨hm, -⟩
    · exact hmarks x hx h0
    · exact hm
  · obtain ⟨K', hin⟩ := hentry hs x hx h0
    exact ⟨x, (mem_entries.mp (hperm.mem_iff.mpr (List.mem_cons_of_mem _ hin))).1, rfl, hm⟩
  · obtain ⟨K', hin⟩ := hentry hs' y hy h0
    rcases List.mem_cons.mp (hperm.mem_iff.mp hin) with heq | hin
    · obtain rfl : y = (p, v) := congrArg Prod.snd heq
      exact .inl hv
    · exact .inr ⟨y, (mem_entries.mp hin).1, rfl⟩

/-- Another head takes the place of the marked head of a node. -/
theorem HeadsKept.replaced {c : List (Frame RtVal)} {p : Ptr} {v v' : RtVal} {l r : Tree RtVal}
    (hnd : (plug c (.node p v l r)).ptrs.Nodup) (hm : v.marked = true) :
    HeadsKept (plug c (.node p v l r)) (plug c (.node p v' l r)) noHead (· = v'.rth) := by
  have hnd' : (plug c (.node p v' l r)).ptrs.Nodup := by
    rw [nodup_plug] at hnd ⊢
    exact hnd
  constructor
  · intro x hx _ hmx _
    rcases mem_pre_of_setVal hnd' hx with rfl | ⟨hx, -⟩
    · rw [hm] at hmx
      cases hmx
    · exact ⟨x, hx, rfl, hmx⟩
  · intro y hy _
    rcases mem_pre_of_setVal hnd hy with rfl | ⟨hy, -⟩
    · exact .inl rfl
    · exact .inr ⟨y, hy, rfl⟩

/-- An insertion keeps the table in shape. In a callback it finds the node that is visited. -/
theorem WalkOk.inserted {control : Control} (h : WalkOk ⟨rtt, control⟩ t) {A : Malloc RtNode}
    {rth : Ptr} {K : List Bool} {n : Nat} {res : Ptr × RtTable} (h0 : rth ≠ NULL)
    (hplace : control = .outside ∨ ∃ w v, control = .callback w ∧
      (K, w.rtn, v) ∈ entries (view rtt.heads) t)
    (ho : InsertOutcome rtt t A rth K n (.ok res)) :
    Kept t noHead (· = rth) ⟨res.2, control⟩ := by
  have hplain : ∀ {rtt' dn dr}, Counted rtt rtt' dn dr →
      rtt'.rttDebug = false := by
    intro rtt' dn dr hcount
    obtain ⟨-, hdebug, -⟩ := hcount.config
    exact hdebug.trans h.plain
  cases ho with
  | present _ _ hs _ hcount => exact ⟨t, ⟨hs, hplain hcount, h.placed⟩, .refl _ _ _⟩
  | noMemory _ hs _ hcount => exact ⟨t, ⟨hs, hplain hcount, h.placed⟩, .refl _ _ _⟩
  | added hg hs' hv hperm hcount =>
    rcases hplace with rfl | ⟨w, v', -, hin⟩
    · obtain ⟨hplaced, hkept⟩ := hg.kept h.shape hs' hv hperm h.placed
      exact ⟨_, ⟨hs', hplain hcount, hplaced⟩, hkept⟩
    · exact absurd hin (hs'.key_is_new hperm _)
  | @replaced rtt' c p v l r ht hin hm hs' hcount =>
    have hv0 : v.rth ≠ NULL := fun hv0 => by
      have hkey := (mem_entries.mp hin).2
      simp [view, hv0] at hkey
    rcases hplace with rfl | ⟨w, v', rfl, hin'⟩
    · rw [show rdxTestBit v.flags RDX_RN_DELE_BIT = v.marked from rfl,
        h.placed.2 _ (mem_entries.mp hin).1 hv0] at hm
      cases hm
    · obtain ⟨c', u, l', r', heq, hmarks, -, hlock, hothers⟩ := h.placed
      obtain ⟨rfl, rfl⟩ := Prod.mk.inj (h.shape.wf.entry_unique hin hin')
      obtain ⟨rfl, hnode⟩ := plug_unique h.shape.holds.nodup heq ht.symm
      obtain ⟨-, rfl, rfl, rfl⟩ := Tree.node.inj hnode
      have hnd : (plug c' (.node w.rtn u l' r')).ptrs.Nodup := heq ▸ h.shape.holds.nodup
      refine ⟨_, ⟨hs', hplain hcount, ?_⟩, heq ▸ .replaced hnd hm⟩
      refine ⟨c', _, l', r', rfl, hmarks.setVal _ hnd, h0, hlock, fun x hx hne => ?_⟩
      rcases mem_pre_of_setVal hnd hx with rfl | ⟨hx, -⟩
      · exact absurd rfl hne
      · exact hothers x (heq ▸ hx) hne

/-- The user writes the address of a head into it. -/
def writeAddr (rtt : RtTable) (rth : Ptr) (addr : Addr) : RtTable :=
  rtt.setHead rth { rtt.heads rth with rthAddr := some addr }

theorem heads_writeAddr (rtt : RtTable) (rth : Ptr) (addr : Addr) (x : Ptr) :
    ((writeAddr rtt rth addr).heads x).rthRtn = (rtt.heads x).rthRtn ∧
      ((writeAddr rtt rth addr).heads x).rdxRthAddr = (rtt.heads x).rdxRthAddr := by
  rw [writeAddr, RtTable.heads_setHead]
  split
  · next hx => exact hx ▸ ⟨rfl, rfl⟩
  · exact ⟨rfl, rfl⟩

theorem rthAddr_writeAddr (rtt : RtTable) (rth : Ptr) (addr : Addr) :
    ((writeAddr rtt rth addr).heads rth).rthAddr = some addr := by
  rw [writeAddr, RtTable.heads_setHead, if_pos rfl]

theorem WalkOk.setHead_addr {s : TableState} (h : WalkOk s t) (rth : Ptr) (addr : Addr) :
    WalkOk { s with rtt := writeAddr s.rtt rth addr } t :=
  h.of_heads rfl rfl rfl fun x => heads_writeAddr s.rtt rth addr x

theorem StoresPrefix.writeAddr {n : RtNode} {addr : Addr} {bitlen : Nat}
    (h : StoresPrefix rtt n addr bitlen) (rth : Ptr) :
    StoresPrefix (Radix.writeAddr rtt rth addr) n addr bitlen := by
  obtain ⟨hbit, a, ha, heq⟩ := h
  exact ⟨hbit, a, (heads_writeAddr rtt rth addr _).2.trans ha, heq⟩

/-- The key of a node that stores a prefix. -/
theorem StoresPrefix.key {v : RtVal} {n : RtNode} {addr : Addr} {bitlen : Nat}
    (h : StoresPrefix rtt n addr bitlen) (hn : n.rtnBit = v.bit ∧ n.rtnRth = v.rth)
    (h0 : v.rth ≠ NULL) :
    v.bit = bitlen ∧
      (view rtt.heads).key v = some (firstBits (bitAt (rtt.queryAddr addr)) bitlen) := by
  obtain ⟨hbit, a, ha, heq⟩ := h
  rw [hn.1] at hbit
  rw [hn.2] at ha
  exact ⟨hbit, by rw [key_view_of_addr h0 ha, hbit, heq]⟩

/-- A head that is inserted and is in the table already is there for its key. -/
theorem WalkOk.insert_own {marker : Ptr → Bool} {s : TableState} (h : WalkOk s t)
    {A : Malloc RtNode} {copyOk : Bool} {rth : Ptr} {addr : Addr} {n : Nat}
    (hallow : TableLabel.Allowed marker s (.insert A copyOk rth addr n)) :
    ∀ x ∈ t.pre, x.2.rth = rth → x.2.marked = false ∧ x.2.bit = n ∧
      (view (writeAddr s.rtt rth addr).heads).key x.2 =
        some (firstBits (bitAt ((writeAddr s.rtt rth addr).queryAddr addr)) n) := by
  obtain ⟨h0, -, -, hown, -⟩ := hallow
  rintro ⟨p, v⟩ hx hxr
  obtain ⟨c, l, r, heq⟩ := exists_plug_of_mem_pre hx
  obtain ⟨hm, hstore⟩ := hown _ _ (h.shape.get_node heq) hxr
  exact ⟨hm, (hstore.writeAddr rth).key ⟨rfl, rfl⟩ (hxr.trans_ne h0)⟩

/-- The step of an insertion. -/
theorem WalkOk.insert {marker : Ptr → Bool} {s : TableState} (h : WalkOk s t) {A : Malloc RtNode}
    {copyOk : Bool} {rth : Ptr} {addr : Addr} {n : Nat} (hacts : s.userActs = true)
    (hallow : TableLabel.Allowed marker s (.insert A copyOk rth addr n)) :
    Ensures (s.exec (.insert A copyOk rth addr n)) (StepOk noHead (· = rth) s t) := by
  have hown₁ := h.insert_own hallow
  obtain ⟨rtt, control⟩ := s
  obtain ⟨h0, -, hn, -, hvisit⟩ := hallow
  let rtt₁ : RtTable := writeAddr rtt rth addr
  have h₁ : WalkOk ⟨rtt₁, control⟩ t := h.setHead_addr rth addr
  have hsame₁ : SameChanges rtt rtt₁ [] := SameChanges.setHead rtt rfl rfl
  have haddr : (rtt₁.heads rth).rthAddr = some addr := rthAddr_writeAddr rtt rth addr
  have hplace : control = .outside ∨ ∃ w v, control = .callback w ∧
      (firstBits (bitAt (rtt₁.queryAddr addr)) n, w.rtn, v) ∈ entries (view rtt₁.heads) t := by
    cases control with
    | outside => exact .inl rfl
    | callback w =>
      obtain ⟨m, hm, hstore⟩ := hvisit w rfl
      obtain ⟨c, v, l, r, heq, -, hv0, -⟩ := h₁.placed
      have hget := h₁.shape.get_node heq
      have hm' : rtt₁.nodes.get w.rtn = some m := hm
      rw [hget] at hm'
      obtain rfl := Option.some.inj hm'
      have hmem : (w.rtn, v) ∈ t.pre := Shape.mem_of_plug heq
      refine .inr ⟨w, v, rfl, mem_entries.mpr ⟨hmem, ?_⟩⟩
      exact ((hstore.writeAddr rth).key ⟨rfl, rfl⟩ hv0).2
    | loop w => cases hacts
    | climb w y => cases hacts
  refine .bind (P := fun res => Kept t noHead (· = rth) ⟨res.2, control⟩ ∧
    ∃ freed, SameChanges rtt res.2 freed ∧ ∀ x ∈ freed, MarkedHead rtt x) ?_ ?_
  · intro res hres
    refine ⟨?_, ?_⟩
    · rcases h₁.shape.insert_outcome A copyOk h₁.plain h0 haddr hn hown₁ res hres with rfl | ho
      · exact ⟨t, h₁, .refl _ _ _⟩
      · exact h₁.inserted h0 hplace ho
    · obtain ⟨freed, hsame, hmarked⟩ := stdRadixInsert_same A copyOk rth n h₁.plain res hres
      exact ⟨freed, hsame₁.trans hsame, fun x hx => hmarked x hx⟩
  · rintro res ⟨hkept, freed, hsame, hmarked⟩
    exact ensures_ok.mpr ⟨hkept, freed, hsame, fun x hx => .inl (hmarked x hx)⟩

/-! ## Removal -/

/-- A head that is not on the change list leaves no trace there. -/
theorem unlinkChange_of_not_mem {rth : Ptr} (hout : rth ∉ rtt.rttClhead) :
    rtt.unlinkChange rth = rtt := by
  rw [unlinkChange, if_neg]
  simp [hout]

/-- The change list is no business of the walk. -/
theorem WalkOk.unlinkChange {control : Control} (h : WalkOk ⟨rtt, control⟩ t) (rth : Ptr) :
    WalkOk ⟨rtt.unlinkChange rth, control⟩ t := by
  unfold RtTable.unlinkChange
  split
  · refine h.of_heads rfl rfl rfl fun x => ?_
    change ((rtt.setHead rth _).heads x).rthRtn = _ ∧ ((rtt.setHead rth _).heads x).rdxRthAddr = _
    rw [RtTable.heads_setHead]
    split
    · next hx => exact hx ▸ ⟨rfl, rfl⟩
    · exact ⟨rfl, rfl⟩
  · exact h

/-- The table in which a removal has been counted. -/
def countRemove (rtt : RtTable) : RtTable := { rtt with rttNremoves := rtt.rttNremoves + 1 }

theorem Shape.countRemove (hs : Shape rtt t) : Shape (Radix.countRemove rtt) t :=
  hs.of_heads (fun _ => rfl) rfl hs.keeps_self

/-- The payload of a node that gets marked. -/
def RtVal.mark (v : RtVal) : RtVal := { v with flags := rdxSetBit v.flags RDX_RN_DELE_BIT }

/-- What a removal does: outside walks the node of the head goes, in a callback the visited node,
whose head it is, is marked. -/
inductive RemoveOutcome (s : TableState) (t : Tree RtVal) (rth : Ptr) (s' : TableState) : Prop
  | removed {c : List (Frame RtVal)} {rn : Ptr} {v : RtVal} {l r : Tree RtVal}
      {res : Ptr × RtTable.Dir × RtTable} : plug c (.node rn v l r) = t → v.rth = rth →
      rth ≠ NULL → Unlocked t → NoMarks t →
      (Radix.countRemove s.rtt).removeNode rn .walkup = .ok res →
      s' = ⟨res.2.2.unlinkChange rth, s.control⟩ → s.control = .outside →
      RemoveOutcome s t rth s'
  | marked {w : VersionWalk} {c : List (Frame RtVal)} {v : RtVal} {l r : Tree RtVal} :
      plug c (.node w.rtn v l r) = t → MarksAbove c (.node w.rtn v l r) → v.rth = rth →
      rth ≠ NULL → v.lock = 1 → (∀ x ∈ t.pre, x.1 ≠ w.rtn → x.2.lock = 0) →
      s' = ⟨{ Radix.countRemove s.rtt with
        nodes := s.rtt.nodes.set w.rtn
          (NodeLayout.cell (l.root NULL) (r.root NULL) (Ctx.top NULL c) v.mark) }, s.control⟩ →
      s.control = .callback w → RemoveOutcome s t rth s'

theorem WalkOk.remove_outcome {marker : Ptr → Bool} {s : TableState} (h : WalkOk s t) {rth : Ptr}
    (hacts : s.userActs = true) (hallow : TableLabel.Allowed marker s (.remove rth)) :
    Ensures (s.exec (.remove rth)) (RemoveOutcome s t rth) := by
  obtain ⟨rtt, control⟩ := s
  obtain ⟨⟨rn, hof⟩, hvisit⟩ := hallow
  obtain ⟨c, v, l, r, heq, hv, h0, hrtn⟩ := h.shape.headOf hof
  have hread : (countRemove rtt).readHead rth = .ok (rtt.heads rth) := by
    rw [readHead, if_neg h0]
    rfl
  have hget : rtt.nodes.get rn = some _ := h.shape.get_node heq
  show Ensures (rtt.stdRadixRemove rth >>= _) _
  unfold stdRadixRemove
  dsimp only
  rw [← countRemove, hread, exec_bind_ok, hrtn, Heap.deref_ok hget, exec_bind_ok]
  cases control with
  | loop w => cases hacts
  | climb w y => cases hacts
  | outside =>
    obtain ⟨hlocks, hmarks⟩ := h.placed
    have hlock : v.lock = 0 := hlocks _ (Shape.mem_of_plug heq)
    rw [if_neg (by simp [cell_rtNode, hlock])]
    refine .bind (P := fun rtt' => ∃ res, (countRemove rtt).removeNode rn .walkup = .ok res ∧
      rtt' = res.2.2.unlinkChange rth) ?_ ?_
    · refine .bind (P := fun res => (countRemove rtt).removeNode rn .walkup = .ok res)
        (fun res hres => hres) fun res hres => ensures_ok.mpr ⟨res, hres, rfl⟩
    · rintro _ ⟨res, hres, rfl⟩
      exact ensures_ok.mpr (.removed heq hv h0 hlocks hmarks hres rfl rfl)
  | callback w =>
    -- only the visited node is marked
    obtain ⟨c', v', l', r', heq', hmarks, -, hlock, hothers⟩ := h.placed
    obtain ⟨c₂, v₂, l₂, r₂, heq₂, hv₂, -, hrtn₂⟩ := h.shape.headOf (hvisit w rfl)
    obtain rfl : rn = w.rtn := hrtn.symm.trans hrtn₂
    obtain ⟨rfl, hnode⟩ := plug_unique h.shape.holds.nodup heq heq'
    obtain ⟨-, rfl, rfl, rfl⟩ := Tree.node.inj hnode
    rw [if_pos (by simp [cell_rtNode, hlock]), Heap.update_ok hget, exec_bind_ok]
    refine .bind (P := fun rtt' => rtt' = { countRemove rtt with
      nodes := rtt.nodes.set w.rtn (NodeLayout.cell (l.root NULL) (r.root NULL) (Ctx.top NULL c)
        v.mark) }) ?_ ?_
    · exact .bindAny fun _ => ensures_ok.mpr rfl
    · rintro _ rfl
      exact ensures_ok.mpr (.marked heq hmarks hv h0 hlock hothers rfl rfl)

/-- The step of a removal. The changes stay the same if the head is not on the change list. -/
theorem WalkOk.remove_kept {marker : Ptr → Bool} {s : TableState} (h : WalkOk s t) {rth : Ptr}
    (hacts : s.userActs = true) (hallow : TableLabel.Allowed marker s (.remove rth)) :
    Ensures (s.exec (.remove rth)) fun s' => Kept t (· = rth) noHead s' ∧
      (rth ∉ s.rtt.rttClhead → ∃ freed, SameChanges s.rtt s'.rtt freed ∧
        ∀ x ∈ freed, MarkedHead s.rtt x ∨ x = rth) := by
  intro s' hrun
  have hs₁ := h.shape.countRemove
  have hsame₁ : SameChanges s.rtt (countRemove s.rtt) [] := .of_eq rfl rfl rfl rfl
  cases h.remove_outcome hacts hallow s' hrun with
  | @removed c rn v l r res heq hv h0 hlocks hmarks hres hs' hout =>
    obtain rfl := hs'
    have hlock : v.lock = 0 := hlocks _ (Shape.mem_of_plug heq)
    obtain ⟨t', ps, ret, rtt', hpr, hrun', hs', -, hfreed, -⟩ :=
      hs₁.removeNode_spec .walkup heq hlock fun f d hc _ _ _ =>
        hlocks _ (heq ▸ hc ▸ Shape.mem_pre_of_frame List.mem_cons_self)
    obtain rfl := Except.ok.inj (hrun'.symm.trans hres)
    obtain ⟨freed, hsame, hof'⟩ := (countRemove s.rtt).removeNode_same rn .walkup _ hres
    have hnd : (plug c (.node rn v l r)).ptrs.Nodup := heq ▸ h.shape.holds.nodup
    obtain ⟨-, hdebug, -⟩ := hfreed.config
    have hwalk : WalkOk ⟨rtt', s.control⟩ t' := by
      rw [hout]
      refine ⟨hs', hdebug.trans h.plain, fun x hx => ?_, fun x hx hx0 => ?_⟩
      · rcases hpr.mem_pre hnd hx with rfl | ⟨hx, -⟩
        · exact hlock
        · exact hlocks x (heq ▸ hx)
      · rcases hpr.mem_pre hnd hx with rfl | ⟨hx, -⟩
        · exact absurd rfl hx0
        · exact hmarks x (heq ▸ hx) hx0
    refine ⟨⟨t', hwalk.unlinkChange rth, h.shape.headsKept_pruned heq hpr fun _ => hv⟩,
      fun hnot => ?_⟩
    have hlist : rth ∉ rtt'.rttClhead := by
      rw [hsame.clhead]
      exact hnot
    rw [unlinkChange_of_not_mem hlist]
    refine ⟨freed, hsame₁.trans hsame, fun x hx => .inr ?_⟩
    obtain ⟨-, n, hn, rfl⟩ := hof' x hx
    rw [hs₁.get_node heq] at hn
    obtain rfl := Option.some.inj hn
    exact hv
  | @marked w c v l r heq hmarks hv h0 hlock hothers hs' hvisit =>
    obtain rfl := hs'
    have hnd : (plug c (.node w.rtn v l r)).ptrs.Nodup := heq ▸ h.shape.holds.nodup
    have hs' : Shape { countRemove s.rtt with
        nodes := s.rtt.nodes.set w.rtn
          (NodeLayout.cell (l.root NULL) (r.root NULL) (Ctx.top NULL c) v.mark) }
        (plug c (.node w.rtn v.mark l r)) := hs₁.setVal heq rfl rfl rfl rfl rfl rfl
    refine ⟨⟨_, ⟨hs', h.plain, ?_⟩, h.shape.headsKept_setVal v.mark heq rfl fun _ => .inr hv⟩,
      fun _ => ⟨[], .of_eq rfl rfl rfl rfl, by simp⟩⟩
    rw [hvisit]
    refine ⟨c, _, l, r, rfl, hmarks.setVal _ hnd, hv.trans_ne h0, hlock, fun x hx hne => ?_⟩
    rcases mem_pre_of_setVal hnd hx with rfl | ⟨hx, -⟩
    · exact absurd rfl hne
    · exact hothers x (heq ▸ hx) hne

/-- The step of a removal of a head that is not on the change list. -/
theorem WalkOk.remove {marker : Ptr → Bool} {s : TableState} (h : WalkOk s t) {rth : Ptr}
    (hacts : s.userActs = true) (hallow : TableLabel.Allowed marker s (.remove rth))
    (hout : rth ∉ s.rtt.rttClhead) :
    Ensures (s.exec (.remove rth)) (StepOk (· = rth) noHead s t) :=
  (h.remove_kept hacts hallow).mono fun _ hres => ⟨hres.1, hres.2 hout⟩

/-! ## The beginning of a walk -/

/-- The step that starts a walk. -/
theorem WalkOk.versionwalk {marker : Ptr → Bool} (h : WalkOk ⟨rtt, .outside⟩ t) {rth : Ptr}
    {walkFn : Bool} {cnt : Int} {minVer maxVer : Nat}
    (hallow : TableLabel.Allowed marker ⟨rtt, .outside⟩ (.versionwalk rth walkFn cnt minVer maxVer)) :
    Ensures (VersionWalk.start rtt rth walkFn cnt minVer maxVer)
      (StepOk noHead noHead ⟨rtt, .outside⟩ t) := by
  obtain ⟨hlocks, hmarks⟩ := h.placed
  unfold VersionWalk.start
  dsimp only
  split
  · refine ensures_ok.mpr (.move h ⟨hlocks, ?_⟩)
    rw [h.shape.holds.root_eq]
    by_cases hnil : t = .nil
    · subst hnil
      exact .gone hmarks
    · exact .of_subtree (c := []) rfl hnil (.of_noMarks hmarks)
  · next h0 =>
    split
    · exact ensures_ok.mpr (.move h h.placed)
    · obtain ⟨rn, hof⟩ := hallow.resolve_left h0
      obtain ⟨c, v, l, r, heq, -, -, hrtn⟩ := h.shape.headOf hof
      rw [hrtn]
      subst heq
      exact ensures_ok.mpr (.move h ⟨hlocks, .node rfl (.of_noMarks hmarks)⟩)

end OpxCommonUtils.Radix
