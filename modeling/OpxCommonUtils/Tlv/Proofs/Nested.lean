import OpxCommonUtils.Tlv.Proofs.Stream

/-!
# TLVs inside of TLVs

A container is a TLV whose value is itself a sequence of TLVs. `std_tlv_efind` follows a path of
tags from container to container; at each level it stays inside of the container it has entered.
-/

namespace OpxCommonUtils.Tlv

open Mem

/-- A TLV with any bytes as its value, or a container of TLVs. -/
inductive Item where
  | value (tag : UInt64) (bs : List UInt8)
  | container (tag : UInt64) (items : List Item)

def Item.tag : Item → UInt64
  | .value tag _ => tag
  | .container tag _ => tag

mutual

/-- The value of an item. -/
def Item.payload : Item → List UInt8
  | .value _ bs => bs
  | .container _ items => contentBytes items

/-- The bytes of items one behind the other. -/
def contentBytes : List Item → List UInt8
  | [] => []
  | item :: items => Entry.encode ⟨item.tag, .bytes item.payload⟩ ++ contentBytes items

end

/-- The item as an entry of the stream it is in. -/
def Item.entry (item : Item) : Entry := ⟨item.tag, .bytes item.payload⟩

theorem contentBytes_eq (items : List Item) :
    contentBytes items = encode (items.map Item.entry) := by
  induction items with
  | nil => rw [contentBytes, List.map_nil, encode_nil]
  | cons item items ih => rw [contentBytes, List.map_cons, encode_cons, ih, Item.entry]

/-! ## The path -/

/-- A TLV that was found: where it is, and the bytes from there to the end of its container. -/
structure Found where
  item : Item
  data : Nat
  rest : Nat

/-- Follow a path through the items at `p`: at every level the first item with the tag. -/
def follow : Nat → List Item → List UInt64 → Option Found
  | _, _, [] => none
  | p, items, tag :: tags =>
    match items.find? (·.tag = tag) with
    | none => none
    | some item =>
      let data := p + (contentBytes (items.takeWhile (·.tag ≠ tag))).length
      match tags, item with
      | [], _ => some ⟨item, data, (contentBytes (items.dropWhile (·.tag ≠ tag))).length⟩
      | _ :: _, .container _ children => follow (data + 16) children tags
      | _ :: _, .value _ _ => none

/-- The content that the first items with these tags lead to. -/
def enter : List Item → List UInt64 → Option (List Item)
  | items, [] => some items
  | items, tag :: tags =>
    match items.find? (·.tag = tag) with
    | some (.container _ children) => enter children tags
    | _ => none

/-- Every item the path enters is a container; the last one need not be. -/
def EntersContainers : List Item → List UInt64 → Prop
  | _, [] => True
  | items, tag :: tags =>
    tags = [] ∨ ∀ item, items.find? (·.tag = tag) = some item →
      ∃ children, item = .container tag children ∧ EntersContainers children tags

/-- Nothing is found if and only if the content at some level has no item with the next tag. -/
theorem follow_eq_none_iff {path : List UInt64} (hne : path ≠ []) {items : List Item}
    (h : EntersContainers items path) (p : Nat) :
    follow p items path = none ↔ ∃ k tag level, path[k]? = some tag ∧
      enter items (path.take k) = some level ∧ ∀ item ∈ level, item.tag ≠ tag := by
  induction path generalizing p items with
  | nil => exact absurd rfl hne
  | cons tag tags ih =>
    rw [follow]
    cases hfind : items.find? (·.tag = tag) with
    | none =>
      refine iff_of_true rfl ⟨0, tag, items, rfl, rfl, fun item hitem => ?_⟩
      have := List.find?_eq_none.mp hfind item hitem
      simpa using this
    | some item =>
      -- The level at hand has the tag, so only a deeper one can miss its own.
      have hhas : ¬ ∀ i ∈ items, i.tag ≠ tag := by
        intro hall
        have hmem := List.mem_of_find?_eq_some hfind
        have htag := List.find?_some hfind
        exact hall item hmem (by simpa using htag)
      cases tags with
      | nil =>
        refine iff_of_false (by simp) ?_
        rintro ⟨k, t, level, hk, henter, hmiss⟩
        cases k with
        | zero =>
          cases hk
          cases henter
          exact hhas hmiss
        | succ k => simp at hk
      | cons next tags =>
        rcases h with h | h
        · cases h
        obtain ⟨children, rfl, hchildren⟩ := h item hfind
        dsimp only
        rw [ih (by simp) hchildren]
        constructor
        · rintro ⟨k, t, level, hk, henter, hmiss⟩
          refine ⟨k + 1, t, level, hk, ?_, hmiss⟩
          rw [List.take_succ_cons, enter, hfind]
          exact henter
        · rintro ⟨k, t, level, hk, henter, hmiss⟩
          cases k with
          | zero =>
            cases hk
            cases henter
            exact absurd hmiss hhas
          | succ k =>
            rw [List.take_succ_cons, enter, hfind] at henter
            exact ⟨k, t, level, hk, henter, hmiss⟩

/-! ## The search -/

variable {e : Endian} {mem : Mem} {p : Nat}

/-- The first entry with a tag, for a stream of items. -/
theorem firstWith_entries (tag : UInt64) (p : Nat) (items : List Item) :
    firstWith tag p (items.map Item.entry) =
      match items.find? (·.tag = tag) with
      | none => (none, 0)
      | some _ => (some (p + (contentBytes (items.takeWhile (·.tag ≠ tag))).length),
          (contentBytes (items.dropWhile (·.tag ≠ tag))).length) := by
  induction items generalizing p with
  | nil => rfl
  | cons item items ih =>
    rw [List.map_cons, firstWith]
    by_cases htag : item.tag = tag
    · have : item.entry.tag = tag := htag
      rw [if_pos this]
      simp [htag, contentBytes_eq]
    · have : ¬ item.entry.tag = tag := htag
      rw [if_neg this, ih]
      have hbytes : ∀ is, (contentBytes (item :: is)).length =
          item.entry.size + (contentBytes is).length := by
        intro is
        rw [contentBytes_eq, List.map_cons, length_encode_cons, contentBytes_eq]
      simp only [List.find?_cons, htag, decide_false, List.takeWhile_cons, List.dropWhile_cons,
        ne_eq, not_false_eq_true, decide_true, if_true, hbytes]
      cases items.find? (·.tag = tag) with
      | none => rfl
      | some _ => simp only [Nat.add_assoc]

/-- The first item with the tag stands behind those that are skipped. -/
theorem at_first {tag : UInt64} {items : List Item} {item : Item}
    (hfind : items.find? (·.tag = tag) = some item) (h : At mem p (contentBytes items)) :
    At mem (p + (contentBytes (items.takeWhile (·.tag ≠ tag))).length) item.entry.encode := by
  induction items generalizing p with
  | nil => cases hfind
  | cons first items ih =>
    have hat : At mem p first.entry.encode ∧
        At mem (p + first.entry.size) (contentBytes items) := by
      rw [contentBytes, at_append] at h
      rwa [← Entry.length_encode]
    by_cases htag : first.tag = tag
    · simp only [List.find?_cons, htag, decide_true, Option.some.injEq] at hfind
      subst hfind
      simpa [List.takeWhile_cons, htag, contentBytes] using hat.1
    · simp only [List.find?_cons, htag, decide_false] at hfind
      have hrest := ih hfind hat.2
      simp only [List.takeWhile_cons, ne_eq, htag, not_false_eq_true, decide_true, if_true]
      rw [contentBytes_eq, List.map_cons, length_encode_cons, ← contentBytes_eq, ← Nat.add_assoc]
      exact hrest

theorem size_le_of_mem {items : List Item} {item : Item} (h : item ∈ items) :
    item.entry.size ≤ (contentBytes items).length := by
  induction items with
  | nil => cases h
  | cons first items ih =>
    rw [contentBytes_eq, List.map_cons, length_encode_cons, ← contentBytes_eq]
    rcases List.mem_cons.mp h with rfl | h
    · omega
    · have := ih h
      omega

theorem sizes_of_content {items : List Item} (hsize : (contentBytes items).length < 2 ^ 64) :
    ∀ x ∈ items.map Item.entry, x.size < 2 ^ 64 := by
  intro x hx
  obtain ⟨item, hitem, rfl⟩ := List.mem_map.mp hx
  exact Nat.lt_of_le_of_lt (size_le_of_mem hitem) hsize

/-- The loop follows the path, and what it finds is there. -/
theorem efindLoop_spec {path : List UInt64} (hne : path ≠ []) {items : List Item}
    (hpath : EntersContainers items path) (hat : At mem p (contentBytes items))
    (hsize : (contentBytes items).length < 2 ^ 64) :
    efindLoop e mem path (some p) (contentBytes items).length =
        .ok ((follow p items path).map fun f => (some f.data, f.rest)) ∧
      ∀ f, follow p items path = some f → f.item.entry.ReadsAt e mem f.data := by
  induction path generalizing p items with
  | nil => exact absurd rfl hne
  | cons tag tags ih =>
    have hsizes := sizes_of_content hsize
    have hsearch := findNext_spec (e := e) hsizes tag (by rwa [← contentBytes_eq])
    rw [← contentBytes_eq, firstWith_entries] at hsearch
    rw [efindLoop, follow, hsearch]
    cases hfind : items.find? (·.tag = tag) with
    | none => exact ⟨rfl, fun f hf => by cases hf⟩
    | some item =>
      have hitem := at_first hfind hat
      have hitemSize := hsizes _ (List.mem_map_of_mem (List.mem_of_find?_eq_some hfind))
      have hreads := readsAt_of_at (e := e) hitemSize hitem
      cases tags with
      | nil =>
        refine ⟨rfl, fun f hf => ?_⟩
        cases hf
        exact hreads
      | cons next tags =>
        rcases hpath with h | h
        · cases h
        obtain ⟨children, rfl, hchildren⟩ := h item hfind
        rw [exec_bind_ok]
        dsimp only
        rw [if_neg (by simp), hreads.2.1, exec_bind_ok]
        have hcontent : At mem (p + (contentBytes (items.takeWhile (·.tag ≠ tag))).length + 16)
            (contentBytes children) := by
          have := (at_append.mp hitem).2
          simpa [Item.entry, Item.payload, Content.payload] using this
        have hsmaller : (contentBytes children).length < 2 ^ 64 := by
          have : (Item.container tag children).entry.size =
              16 + (contentBytes children).length := by
            simp [Item.entry, Entry.size, Item.payload, Content.payload]
          omega
        exact ih (by simp) hchildren hcontent hsmaller

/-- Nested lookup follows the path. The TLV found is that of `follow`, level by level the first one
with the next tag inside of the TLV chosen before, with `*dlen` the bytes from there to the end of
its own container; it is missing if and only if some level has no item with its tag, and `*dlen` is
then unchanged. A value that is no sequence of TLVs is not entered. -/
theorem stdTlvEfind_follows (e : Endian) (mem : Mem) (p : Nat) (items : List Item)
    (hat : At mem p (contentBytes items)) (hsize : (contentBytes items).length < 2 ^ 64)
    (path : List UInt64) (hne : path ≠ []) (hpath : EntersContainers items path) :
    (∀ f, follow p items path = some f →
      stdTlvEfind e mem (some p) (contentBytes items).length path = .ok (some f.data, f.rest) ∧
        f.item.entry.ReadsAt e mem f.data) ∧
    (follow p items path = none →
      stdTlvEfind e mem (some p) (contentBytes items).length path =
        .ok (none, (contentBytes items).length)) ∧
    (follow p items path = none ↔ ∃ k tag level, path[k]? = some tag ∧
      enter items (path.take k) = some level ∧ ∀ item ∈ level, item.tag ≠ tag) := by
  obtain ⟨hloop, hreads⟩ := efindLoop_spec (e := e) hne hpath hat hsize
  refine ⟨fun f hf => ⟨?_, hreads f hf⟩, fun hf => ?_, follow_eq_none_iff hne hpath p⟩
  · rw [stdTlvEfind, hloop, hf]
    rfl
  · rw [stdTlvEfind, hloop, hf]
    rfl

/-- A container with two values inside of a container, and a value with one of their tags behind
it. -/
def sampleItems : List Item :=
  [.value 1 [7], .container 2 [.container 3 [.value 4 [], .value 5 [8, 9]]], .value 5 []]

theorem stdTlvEfind_follows_sample :
    follow 0 sampleItems [2, 3, 5] = some ⟨.value 5 [8, 9], 65, 18⟩ ∧
      ∃ f, follow 0 sampleItems [2, 3, 5] = some f ∧
        stdTlvEfind .little (contentBytes sampleItems) (some 0) (contentBytes sampleItems).length
          [2, 3, 5] = .ok (some f.data, f.rest) := by
  have hfollow : follow 0 sampleItems [2, 3, 5] = some ⟨.value 5 [8, 9], 65, 18⟩ := by
    rfl
  have hpath : EntersContainers sampleItems [2, 3, 5] := by
    refine .inr fun item hitem => ?_
    cases hitem
    refine ⟨_, rfl, .inr fun item hitem => ?_⟩
    cases hitem
    exact ⟨_, rfl, .inl rfl⟩
  have hat : At (contentBytes sampleItems) 0 (contentBytes sampleItems) := ⟨[], [], by simp, rfl⟩
  exact ⟨hfollow, _, hfollow, ((stdTlvEfind_follows .little (contentBytes sampleItems) 0 sampleItems
    hat (by decide) [2, 3, 5] (by decide) hpath).1 _ hfollow).1⟩

end OpxCommonUtils.Tlv
