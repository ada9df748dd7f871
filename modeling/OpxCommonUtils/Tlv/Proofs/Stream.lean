import OpxCommonUtils.Tlv.Format

/-!
# A stream of TLVs

What a sequence of additions writes, and what a walk and a search for a tag read back. The bytes
of a list of entries (`encode`) connect the two sides: additions leave them in the buffer
(`addAll_spec`), and wherever a buffer holds them the readers find the entries (`walk_spec`,
`findAll_spec`).
-/

namespace OpxCommonUtils.Tlv

open Mem

/-- What a user puts in a TLV. -/
inductive Content where
  | bytes (bs : List UInt8)
  | u16 (x : UInt16)
  | u32 (x : UInt32)
  | u64 (x : UInt64)
  deriving DecidableEq

/-- The value of a TLV as bytes. -/
def Content.payload : Content → List UInt8
  | .bytes bs => bs
  | .u16 x => leBytes 2 x.toNat
  | .u32 x => leBytes 4 x.toNat
  | .u64 x => leBytes 8 x.toNat

/-- A tag with its content. -/
structure Entry where
  tag : UInt64
  content : Content
  deriving DecidableEq

namespace Entry

/-- The bytes the entry takes. -/
def size (x : Entry) : Nat := 16 + x.content.payload.length

/-- The bytes of the entry. -/
def encode (x : Entry) : List UInt8 :=
  leBytes 8 x.tag.toNat ++ leBytes 8 x.content.payload.length ++ x.content.payload

/-- Add the entry with the routine for its kind of content. -/
def add (e : Endian) (mem : Mem) (data dataLen : Nat) (x : Entry) :
    Exec (Option Nat × Nat × Mem) :=
  match x.content with
  | .bytes bs => stdTlvAdd e mem data dataLen x.tag bs.length bs
  | .u16 y => stdTlvAddU16 e mem data dataLen x.tag y
  | .u32 y => stdTlvAddU32 e mem data dataLen x.tag y
  | .u64 y => stdTlvAddU64 e mem data dataLen x.tag y

@[simp] theorem length_encode (x : Entry) : x.encode.length = x.size := by
  simp only [encode, size, List.length_append, length_leBytes]

theorem size_pos (x : Entry) : 0 < x.size := by
  simp only [size]
  omega

/-- All routines write the bytes of the content. -/
theorem add_eq (e : Endian) (mem : Mem) (data dataLen : Nat) (x : Entry) :
    x.add e mem data dataLen =
      stdTlvAdd e mem data dataLen x.tag x.content.payload.length x.content.payload := by
  obtain ⟨tag, content⟩ := x
  cases content <;>
    simp [add, Content.payload, stdTlvAddU16, stdTlvAddU32, stdTlvAddU64, Endian.bytes_htole]

/-- The reading routines deliver the entry at `p`. -/
def ReadsAt (e : Endian) (mem : Mem) (x : Entry) (p : Nat) : Prop :=
  stdTlvTag e mem p = .ok x.tag ∧ stdTlvLen e mem p = .ok x.content.payload.length ∧
    mem.load (stdTlvData p) x.content.payload.length = .ok x.content.payload ∧
    match x.content with
    | .bytes _ => True
    | .u16 y => stdTlvDataU16 e mem p = .ok y
    | .u32 y => stdTlvDataU32 e mem p = .ok y
    | .u64 y => stdTlvDataU64 e mem p = .ok y

end Entry

/-! ## Writing -/

/-- A number that a host has stored in little endian is read back. -/
theorem loadLe_of_at {e : Endian} {mem : Mem} {p w n : Nat} (hn : n < 256 ^ w)
    (h : At mem p (leBytes w n)) : loadLe e mem p w = .ok n := by
  have hload := h.load
  rw [length_leBytes] at hload
  have hconv := e.htole_nat (leBytes w n)
  rw [length_leBytes, leNat_leBytes_of_lt hn] at hconv
  rw [loadLe, hload, exec_bind_ok, hconv]
  rfl

variable {e : Endian} {mem : Mem} {p rem : Nat} {x : Entry}

/-- An entry that does not fit is rejected and changes nothing. -/
theorem add_rejects (hfit : x.size < 2 ^ 64) (hlt : rem < x.size) :
    x.add e mem p rem = .ok (none, rem, mem) := by
  rw [Entry.add_eq, stdTlvAdd, if_pos]
  · rfl
  · simp only [Entry.size, STD_TLV_HDR_LEN] at hfit hlt ⊢
    omega

/-- An entry that fits is written behind what is there, and only the space it takes is. -/
theorem add_accepts (hfit : x.size < 2 ^ 64) (hle : x.size ≤ rem)
    (hmem : p + rem = mem.length) :
    ∃ mem', x.add e mem p rem = .ok (some (p + x.size), rem - x.size, mem') ∧
      mem'.length = mem.length ∧ At mem' p x.encode ∧
      (∀ q cs, q + cs.length ≤ p → At mem q cs → At mem' q cs) ∧
      mem'.drop (p + x.size) = mem.drop (p + x.size) := by
  have htot : (x.content.payload.length + 16) % 2 ^ 64 = x.size := by
    simp only [Entry.size] at hfit ⊢
    omega
  have hsize : x.size = 16 + x.content.payload.length := rfl
  obtain ⟨mem₁, h₁, hlen₁, hat₁, hkeep₁, hdrop₁⟩ := store_ok mem (leBytes 8 x.tag.toNat) (p := p)
    (by rw [length_leBytes]; omega)
  obtain ⟨mem₂, h₂, hlen₂, hat₂, hkeep₂, hdrop₂⟩ := store_ok mem₁
    (leBytes 8 x.content.payload.length) (p := p + 8) (by rw [length_leBytes]; omega)
  obtain ⟨mem₃, h₃, hlen₃, hat₃, hkeep₃, hdrop₃⟩ := store_ok mem₂ x.content.payload (p := p + 16)
    (by omega)
  refine ⟨mem₃, ?_, hlen₃.trans (hlen₂.trans hlen₁), ?_, ?_, ?_⟩
  · have hcontent : Mem.load x.content.payload 0 x.content.payload.length =
        .ok x.content.payload := At.load ⟨[], [], by simp, rfl⟩
    rw [Entry.add_eq, stdTlvAdd]
    simp only [STD_TLV_HDR_LEN, htot, if_neg (Nat.not_lt.mpr hle), stdTlvSetTag, stdTlvSetLen,
      stdTlvOffset, STD_TLV_TAG_POS, STD_TLV_LEN_POS, Endian.bytes_htole, Nat.add_zero, h₁, h₂, h₃,
      hcontent, exec_bind_ok]
    rfl
  · simp only [Entry.encode, at_append, List.length_append, length_leBytes]
    refine ⟨⟨?_, ?_⟩, hat₃⟩
    · exact hkeep₃ _ _ (by simp) (hkeep₂ _ _ (by simp) hat₁)
    · exact hkeep₃ _ _ (by simp) hat₂
  · intro q cs hq hat
    exact hkeep₃ _ _ (by omega) (hkeep₂ _ _ (by omega) (hkeep₁ _ _ hq hat))
  · rw [length_leBytes] at hdrop₁ hdrop₂
    have hsplit : ∀ (m m' : Mem) (a b : Nat), m.drop a = m'.drop a → a ≤ b → m.drop b = m'.drop b :=
      fun m m' a b hab hle => by
        rw [show b = a + (b - a) by omega, ← List.drop_drop, ← List.drop_drop, hab]
    rw [show p + x.size = p + 16 + x.content.payload.length by omega, hdrop₃,
      hsplit _ _ _ _ hdrop₂ (by omega), hsplit _ _ _ _ hdrop₁ (by omega)]

/-- Add entries one after the other; one that is rejected is left out. The entries accepted, the
pointer behind the last, the space left and the buffer. -/
def addAll (e : Endian) : Mem → Nat → Nat → List Entry → Exec (List Entry × Nat × Nat × Mem)
  | mem, data, dataLen, [] => .ok ([], data, dataLen, mem)
  | mem, data, dataLen, x :: xs => do
    let (r, dataLen, mem) ← x.add e mem data dataLen
    match r with
    | none => addAll e mem data dataLen xs
    | some data =>
      let (acc, rest) ← addAll e mem data dataLen xs
      return (x :: acc, rest)

/-- The entries that fit when each takes its place in `rem` bytes in turn. -/
def accepted : Nat → List Entry → List Entry
  | _, [] => []
  | rem, x :: xs => if x.size ≤ rem then x :: accepted (rem - x.size) xs else accepted rem xs

/-- The bytes of entries. -/
def encode (xs : List Entry) : List UInt8 := xs.flatMap Entry.encode

@[simp] theorem encode_nil : encode [] = [] := rfl

@[simp] theorem encode_cons (x : Entry) (xs : List Entry) :
    encode (x :: xs) = x.encode ++ encode xs := rfl

/-- Additions leave the bytes of the accepted entries in the buffer. -/
theorem addAll_spec (e : Endian) (entries : List Entry) (hfit : ∀ x ∈ entries, x.size < 2 ^ 64) :
    ∀ (mem : Mem) (p rem : Nat), p + rem = mem.length →
      ∃ mem' rem', addAll e mem p rem entries =
          .ok (accepted rem entries, p + (encode (accepted rem entries)).length, rem', mem') ∧
        (encode (accepted rem entries)).length + rem' = rem ∧ mem'.length = mem.length ∧
        At mem' p (encode (accepted rem entries)) ∧
        ∀ q cs, q + cs.length ≤ p → At mem q cs → At mem' q cs := by
  induction entries with
  | nil =>
    intro mem p rem hmem
    refine ⟨mem, rem, rfl, by simp [accepted], rfl, ?_, fun _ _ _ h => h⟩
    refine ⟨mem.take p, mem.drop p, by simp [accepted], ?_⟩
    rw [List.length_take]
    omega
  | cons x xs ih =>
    intro mem p rem hmem
    have ih := ih fun y hy => hfit y (by simp [hy])
    have hx := hfit x (by simp)
    rw [accepted]
    by_cases hle : x.size ≤ rem
    · obtain ⟨mem₁, hadd, hlen, hat, hkeep, -⟩ := add_accepts (e := e) hx hle hmem
      obtain ⟨mem', rem', hrun, hrem, hlen', hat', hkeep'⟩ :=
        ih mem₁ (p + x.size) (rem - x.size) (by omega)
      refine ⟨mem', rem', ?_, ?_, hlen'.trans hlen, ?_, ?_⟩
      · rw [addAll, hadd, exec_bind_ok]
        simp only [hrun, exec_bind_ok, if_pos hle, encode_cons, List.length_append,
          Entry.length_encode, Nat.add_assoc]
        rfl
      · simp only [if_pos hle, encode_cons, List.length_append, Entry.length_encode]
        omega
      · rw [if_pos hle, encode_cons, at_append, Entry.length_encode]
        exact ⟨hkeep' _ _ (by simp) hat, hat'⟩
      · exact fun q cs hq h => hkeep' q cs (by omega) (hkeep q cs hq h)
    · obtain ⟨mem', rem', hrun, hrest⟩ := ih mem p rem hmem
      refine ⟨mem', rem', ?_, ?_⟩
      · rw [addAll, add_rejects hx (by omega), exec_bind_ok]
        simp only [if_neg hle]
        exact hrun
      · rw [if_neg hle]
        exact hrest

/-! ## Reading -/

/-- The bytes of an entry read as the entry. -/
theorem readsAt_of_at (hfit : x.size < 2 ^ 64) (h : At mem p x.encode) :
    x.ReadsAt e mem p := by
  simp only [Entry.encode, at_append, List.length_append, length_leBytes] at h
  obtain ⟨⟨htag, hlen⟩, hpay⟩ := h
  have hpos : stdTlvData p = p + 16 := rfl
  refine ⟨?_, ?_, hpos ▸ hpay.load, ?_⟩
  · have hread := loadLe_of_at (e := e) (n := x.tag.toNat) x.tag.toNat_lt htag
    rw [stdTlvTag, show stdTlvOffset p STD_TLV_TAG_POS = p from rfl, hread, exec_bind_ok,
      UInt64.ofNat_toNat]
    rfl
  · refine loadLe_of_at ?_ hlen
    simp only [Entry.size] at hfit
    omega
  · obtain ⟨tag, content⟩ := x
    cases content with
    | bytes bs => trivial
    | u16 y =>
      have hread := loadLe_of_at (e := e) (n := y.toNat) y.toNat_lt hpay
      simp only [stdTlvDataU16, hpos, hread, exec_bind_ok, UInt16.ofNat_toNat]
      rfl
    | u32 y =>
      have hread := loadLe_of_at (e := e) (n := y.toNat) y.toNat_lt hpay
      simp only [stdTlvDataU32, hpos, hread, exec_bind_ok, UInt32.ofNat_toNat]
      rfl
    | u64 y =>
      have hread := loadLe_of_at (e := e) (n := y.toNat) y.toNat_lt hpay
      simp only [stdTlvDataU64, hpos, hread, exec_bind_ok, UInt64.ofNat_toNat]
      rfl

theorem totalLen_of_at (hfit : x.size < 2 ^ 64) (h : At mem p x.encode) :
    stdTlvTotalLen e mem p = .ok x.size := by
  rw [stdTlvTotalLen, (readsAt_of_at hfit h).2.1, exec_bind_ok]
  simp only [STD_TLV_HDR_LEN, Entry.size] at hfit ⊢
  rw [Nat.mod_eq_of_lt (by omega), Nat.add_comm]
  rfl

theorem valid_of_at {n : Nat} (hfit : x.size < 2 ^ 64) (h : At mem p x.encode) :
    stdTlvValid e mem (some p) (x.size + n) = .ok true := by
  have hpos := x.size_pos
  rw [stdTlvValid, if_neg (by omega), totalLen_of_at hfit h, exec_bind_ok,
    decide_eq_true (Nat.le_add_right ..)]
  rfl

theorem next_of_at {n : Nat} (hfit : x.size < 2 ^ 64) (h : At mem p x.encode) :
    stdTlvNext e mem (some p) (x.size + n) = .ok (some (p + x.size), n) := by
  rw [stdTlvNext, totalLen_of_at hfit h, exec_bind_ok, if_neg (by omega), Nat.add_sub_cancel_left]
  rfl

/-- Walk over the TLVs as long as they are valid: the pointers, each with the length that remains
behind the TLV. -/
def walk (e : Endian) (mem : Mem) : Nat → Option Nat → Nat → Exec (List (Nat × Nat))
  | 0, _, _ => .error .diverges
  | fuel + 1, data, len => do
    let valid ← stdTlvValid e mem data len
    match valid, data with
    | true, some p =>
      let (next, len) ← stdTlvNext e mem (some p) len
      let rest ← walk e mem fuel next len
      return (p, len) :: rest
    | _, _ => return []

/-- Search again and again for a tag: the pointers found. -/
def findAll (e : Endian) (mem : Mem) (tag : UInt64) : Nat → Option Nat → Nat → Exec (List Nat)
  | 0, _, _ => .error .diverges
  | fuel + 1, data, len => do
    let (found, len) ← stdTlvFindNext e mem data len tag
    match found with
    | none => return []
    | some p =>
      let (next, len) ← stdTlvNext e mem (some p) len
      let rest ← findAll e mem tag fuel next len
      return p :: rest

/-- Where the entries of a stream are, and how many bytes follow each. -/
def positions : Nat → List Entry → List (Nat × Nat)
  | _, [] => []
  | p, x :: xs => (p, (encode xs).length) :: positions (p + x.size) xs

/-- Where the first entry with a tag is, with the bytes from there on. -/
def firstWith (tag : UInt64) : Nat → List Entry → Option Nat × Nat
  | _, [] => (none, 0)
  | p, x :: xs =>
    if x.tag = tag then (some p, (encode (x :: xs)).length) else firstWith tag (p + x.size) xs

section Stream

variable {xs : List Entry} (hfit : ∀ x ∈ xs, x.size < 2 ^ 64)

theorem length_encode_cons (x : Entry) (xs : List Entry) :
    (encode (x :: xs)).length = x.size + (encode xs).length := by
  rw [encode_cons, List.length_append, Entry.length_encode]

theorem length_le_encode (xs : List Entry) : xs.length ≤ (encode xs).length := by
  induction xs with
  | nil => exact le_rfl
  | cons x xs ih =>
    have hpos := x.size_pos
    rw [length_encode_cons, List.length_cons]
    omega

include hfit

theorem walk_spec : ∀ {p fuel : Nat}, At mem p (encode xs) → xs.length < fuel →
    walk e mem fuel (some p) (encode xs).length = .ok (positions p xs) := by
  induction xs with
  | nil =>
    intro p fuel _ hf
    obtain ⟨fuel, rfl⟩ := Nat.exists_eq_add_of_lt hf
    rfl
  | cons x xs ih =>
    intro p fuel h hf
    obtain ⟨fuel, rfl⟩ : ∃ n, fuel = n + 1 := ⟨fuel - 1, by simp at hf; omega⟩
    have hx := hfit x (by simp)
    have hat := at_append.mp h
    rw [Entry.length_encode] at hat
    rw [length_encode_cons, walk, valid_of_at hx hat.1, exec_bind_ok]
    simp only [next_of_at hx hat.1, exec_bind_ok]
    rw [ih (fun y hy => hfit y (by simp [hy])) hat.2 (by simpa using hf)]
    rfl

theorem findNextLoop_spec (tag : UInt64) : ∀ {p fuel : Nat}, At mem p (encode xs) →
    xs.length < fuel →
    findNextLoop e mem tag fuel (some p) (encode xs).length = .ok (firstWith tag p xs) := by
  induction xs with
  | nil =>
    intro p fuel _ hf
    obtain ⟨fuel, rfl⟩ := Nat.exists_eq_add_of_lt hf
    rfl
  | cons x xs ih =>
    intro p fuel h hf
    obtain ⟨fuel, rfl⟩ : ∃ n, fuel = n + 1 := ⟨fuel - 1, by simp at hf; omega⟩
    have hx := hfit x (by simp)
    have hat := at_append.mp h
    rw [Entry.length_encode] at hat
    rw [length_encode_cons, findNextLoop, valid_of_at hx hat.1, exec_bind_ok]
    simp only [(readsAt_of_at hx hat.1).1, exec_bind_ok, next_of_at hx hat.1, firstWith]
    by_cases htag : x.tag = tag
    · simp only [if_pos htag, length_encode_cons]
      rfl
    · simp only [if_neg htag, Option.isNone_some, Bool.false_eq_true, if_false]
      exact ih (fun y hy => hfit y (by simp [hy])) hat.2 (by simpa using hf)

theorem findNext_spec (tag : UInt64) (h : At mem p (encode xs)) :
    stdTlvFindNext e mem (some p) (encode xs).length tag = .ok (firstWith tag p xs) := by
  have := length_le_encode xs
  exact findNextLoop_spec hfit tag h (by omega)

/-- The pointers a repeated search finds are those of the entries with the tag. -/
theorem findAll_spec (tag : UInt64) : ∀ {p : Nat} (fuel : Nat), At mem p (encode xs) →
    xs.length < fuel → ∃ ps, findAll e mem tag fuel (some p) (encode xs).length = .ok ps ∧
      List.Forall₂ (Entry.ReadsAt e mem) (xs.filter (fun x => x.tag = tag)) ps := by
  induction xs with
  | nil =>
    intro p fuel h hf
    obtain ⟨fuel, rfl⟩ := Nat.exists_eq_add_of_lt hf
    exact ⟨[], rfl, List.Forall₂.nil⟩
  | cons x xs ih =>
    intro p fuel h hf
    obtain ⟨fuel, rfl⟩ : ∃ n, fuel = n + 1 := ⟨fuel - 1, by simp at hf; omega⟩
    have hx := hfit x (by simp)
    have hxs : ∀ y ∈ xs, y.size < 2 ^ 64 := fun y hy => hfit y (by simp [hy])
    have hat := at_append.mp h
    rw [Entry.length_encode] at hat
    by_cases htag : x.tag = tag
    · obtain ⟨ps, hps, hreads⟩ := ih hxs fuel hat.2 (by simpa using hf)
      refine ⟨p :: ps, ?_, ?_⟩
      · rw [findAll, findNext_spec hfit tag h, firstWith, if_pos htag, exec_bind_ok]
        simp only [length_encode_cons, next_of_at hx hat.1, exec_bind_ok, hps]
        rfl
      · rw [List.filter_cons_of_pos (by simpa using htag)]
        exact .cons (readsAt_of_at hx hat.1) hreads
    · obtain ⟨ps, hps, hreads⟩ := ih hxs (fuel + 1) hat.2 (by simp at hf; omega)
      refine ⟨ps, ?_, ?_⟩
      · rw [findAll, findNext_spec hxs tag hat.2] at hps
        rw [findAll, findNext_spec hfit tag h, firstWith, if_neg htag]
        exact hps
      · rwa [List.filter_cons_of_neg (by simpa using htag)]

theorem positions_readsAt : ∀ {p : Nat}, At mem p (encode xs) →
    List.Forall₂ (fun x r => Entry.ReadsAt e mem x r.1) xs (positions p xs) := by
  induction xs with
  | nil => exact fun _ => .nil
  | cons x xs ih =>
    intro p h
    have hat := at_append.mp h
    rw [Entry.length_encode] at hat
    exact .cons (readsAt_of_at (hfit x (by simp)) hat.1)
      (ih (fun y hy => hfit y (by simp [hy])) hat.2)

end Stream

/-- Nothing remains exactly behind the last entry. -/
theorem positions_rest (xs : List Entry) : ∀ (p i : Nat) (h : i < (positions p xs).length),
    ((positions p xs)[i]).2 = 0 ↔ i + 1 = (positions p xs).length := by
  induction xs with
  | nil => intro p i h; simp [positions] at h
  | cons x xs ih =>
    intro p i h
    cases i with
    | zero =>
      cases xs with
      | nil => simp [positions]
      | cons y ys =>
        have hpos := y.size_pos
        simp only [positions, List.getElem_cons_zero, length_encode_cons, List.length_cons]
        omega
    | succ i =>
      simp only [positions, List.length_cons, List.getElem_cons_succ] at h ⊢
      rw [ih _ i (by omega)]
      omega

/-! ## Result -/

/-- Decoding undoes encoding. An addition accepts what fits and rejects the rest without a
change; a walk over the bytes written finds the accepted entries in order and nothing behind the
last; a repeated search finds those with the tag. No object takes `2 ^ 64` bytes. -/
theorem tlv_decode_encode (e : Endian) (mem : Mem) (entries : List Entry)
    (hfit : ∀ x ∈ entries, x.size < 2 ^ 64) :
    (∀ x ∈ entries, ∀ m p rem, p + rem = m.length →
      (x.size ≤ rem → ∃ m', x.add e m p rem = .ok (some (p + x.size), rem - x.size, m')) ∧
      (rem < x.size → x.add e m p rem = .ok (none, rem, m))) ∧
    ∃ mem' data rem, addAll e mem 0 mem.length entries =
        .ok (accepted mem.length entries, data, rem, mem') ∧
      mem'.length = mem.length ∧ data + rem = mem.length ∧
      (∃ rounds, walk e mem' (data + 1) (some 0) data = .ok rounds ∧
        List.Forall₂ (fun x r => Entry.ReadsAt e mem' x r.1) (accepted mem.length entries) rounds ∧
        ∀ i (h : i < rounds.length), (rounds[i]).2 = 0 ↔ i + 1 = rounds.length) ∧
      ∀ tag, ∃ ps, findAll e mem' tag (data + 1) (some 0) data = .ok ps ∧
        List.Forall₂ (Entry.ReadsAt e mem')
          ((accepted mem.length entries).filter (fun x => x.tag = tag)) ps := by
  refine ⟨fun x hx m p rem hm => ⟨fun hle => ?_, add_rejects (hfit x hx)⟩, ?_⟩
  · obtain ⟨m', hadd, -⟩ := add_accepts (e := e) (hfit x hx) hle hm
    exact ⟨m', hadd⟩
  · obtain ⟨mem', rem, hrun, hrem, hlen, hat, -⟩ :=
      addAll_spec e entries hfit mem 0 mem.length (Nat.zero_add _)
    rw [Nat.zero_add] at hrun
    have hacc : ∀ x ∈ accepted mem.length entries, x.size < 2 ^ 64 := by
      have hsub : ∀ (ys : List Entry) (n : Nat), (accepted n ys).Sublist ys := by
        intro ys
        induction ys with
        | nil => exact fun _ => .slnil
        | cons y ys ih =>
          intro n
          rw [accepted]
          split
          · exact (ih _).cons_cons y
          · exact (ih _).cons y
      exact fun x hx => hfit x ((hsub _ _).subset hx)
    have hfuel := length_le_encode (accepted mem.length entries)
    refine ⟨mem', _, rem, hrun, hlen, hrem, ⟨positions 0 (accepted mem.length entries), ?_, ?_, ?_⟩,
      fun tag => findAll_spec hacc tag _ hat (by omega)⟩
    · exact walk_spec hacc hat (by omega)
    · exact positions_readsAt hacc hat
    · exact positions_rest _ 0

/-- Six bytes and three numbers in a buffer of 71 bytes: the last number does not fit. -/
def sampleEntries : List Entry :=
  [⟨0, .bytes [67, 108, 105, 102, 102, 0]⟩, ⟨1, .u16 1⟩, ⟨2, .u32 2⟩, ⟨3, .u64 3⟩]

example : accepted 71 sampleEntries = sampleEntries.take 3 := by decide

theorem tlv_decode_encode_sample : ∃ mem' data rem,
    addAll .little (List.replicate 71 255) 0 71 sampleEntries =
        .ok (sampleEntries.take 3, data, rem, mem') ∧
      ∃ rounds, walk .little mem' (data + 1) (some 0) data = .ok rounds ∧
        rounds.length = 3 := by
  have hfit : ∀ x ∈ sampleEntries, x.size < 2 ^ 64 := by decide
  obtain ⟨-, mem', data, rem, hadd, -, -, ⟨rounds, hwalk, hreads, -⟩, -⟩ :=
    tlv_decode_encode .little (List.replicate 71 255) sampleEntries hfit
  have hacc : accepted 71 sampleEntries = sampleEntries.take 3 := by decide
  rw [List.length_replicate, hacc] at hadd hreads
  exact ⟨mem', data, rem, hadd, rounds, hwalk, hreads.length_eq.symm⟩

end OpxCommonUtils.Tlv
