import OpxCommonUtils.Net.Mac

/-!
# Reading MAC addresses

A conversion reads a field of one or two digits as the field's number (`scanHex_field`), except that
`0` with an `x` behind it is taken for the beginning of another number.
-/

namespace OpxCommonUtils.Net

/-- A hexadecimal octet of one or two digits. -/
def IsField (d : StdString) : Prop := d ≠ [] ∧ d.length ≤ 2 ∧ ∀ c ∈ d, isDigit 16 c

/-- `s` is six octets with colons between them, and `rest`. -/
structure IsMac (s : StdString) (fields : List StdString) (rest : StdString) : Prop where
  eq : s = [58].intercalate fields ++ rest
  length : fields.length = HAL_MAC_ADDR_LEN
  digits : ∀ d ∈ fields, IsField d
  ends : ∀ c t, rest = c :: t → ¬ isDigit 16 c

/-- The address with these fields. -/
def octets (fields : List StdString) : HalMacAddr :=
  fun ix => .ofNat (numeral 16 (fields.getD ix []))

/-- `std_string_to_mac` takes exactly the addresses, whatever is in `tmp`, and it leaves `mac` where
it takes none. What `std_mac_to_string` writes is read back. -/
structure ReadsMac (F : Scanf) (s : StdString) : Prop where
  accepts : ∀ fields rest, IsMac s fields rest → ∀ tmp,
    stdStringToMac F tmp s = (true, octets fields)
  rejects : (∀ fields rest, ¬ IsMac s fields rest) → ∀ tmp mac, stdStringToMac F tmp s = (false, mac)
  round_trip : ∀ (mac : HalMacAddr) (buff : List UInt8) (len : Nat), 18 ≤ len → len ≤ buff.length →
    ∀ tmp, stdStringToMac F tmp (StdString.cStr (stdMacToString mac buff len)) = (true, mac)

/-- The last field and `rest` are read as a number with a prefix whose last byte is not that of the
field. -/
def Misread (F : Scanf) (fields : List StdString) (rest : StdString) : Prop :=
  fields.getLast? = some [48] ∧ ∃ x t, rest = x :: t ∧ (x = 120 ∨ x = 88) ∧
    if t.takeWhile (isDigit 16) = [] then F.bare = false
    else (F.store false (numeral 16 (t.takeWhile (isDigit 16)))).toUInt8 ≠ 0

variable {F : Scanf} {d rest : StdString}

/-! ## One conversion -/

/-- A digit is no white space, no sign and no `x`. -/
theorem of_isDigit {c : UInt8} (h : isDigit 16 c) :
    ¬ isSpace c ∧ c ≠ 43 ∧ c ≠ 45 ∧ c ≠ 120 ∧ c ≠ 88 := by
  have hne (n : UInt8) (hn : ¬ isDigit 16 n) : c ≠ n := fun heq => hn (heq ▸ h)
  refine ⟨fun hspace => ?_, hne _ (by decide), hne _ (by decide), hne _ (by decide),
    hne _ (by decide)⟩
  have hle := le_of_isDigit h
  simp only [isSpace, decide_eq_true_eq, UInt8.le_iff_toNat_le, UInt8.reduceToNat] at hspace
  rcases hspace with rfl | hspace
  · exact absurd hle (by decide)
  · omega

theorem takeWhile_field (hdigits : ∀ c ∈ d, isDigit 16 c)
    (hrest : ∀ c t, rest = c :: t → ¬ isDigit 16 c) :
    (d ++ rest).takeWhile (isDigit 16) = d ∧ (d ++ rest).dropWhile (isDigit 16) = rest := by
  rw [List.takeWhile_append_of_pos hdigits, List.dropWhile_append_of_pos hdigits]
  cases rest with
  | nil => simp
  | cons c t =>
    have hc := hrest c t rfl
    rw [List.takeWhile_cons_of_neg hc, List.dropWhile_cons_of_neg hc, List.append_nil]
    exact ⟨rfl, rfl⟩

theorem scanNumber_eq {neg : Bool} {s : StdString}
    (h : ∀ x t, s = 48 :: x :: t → ¬ (x = 120 ∨ x = 88)) :
    scanNumber F neg s = scanDigits F neg s := by
  unfold scanNumber
  split
  · rename_i x t
    rw [if_neg (h x t rfl)]
  · rfl

/-- A field of one or two digits is read as its number, unless it looks like a prefix. -/
theorem scanHex_field (hne : d ≠ []) (hlen : d.length ≤ 2) (hdigits : ∀ c ∈ d, isDigit 16 c)
    (hrest : ∀ c t, rest = c :: t → ¬ isDigit 16 c)
    (hx : d = [48] → ∀ x t, rest = x :: t → ¬ (x = 120 ∨ x = 88)) :
    scanHex F (d ++ rest) = some (.ofNat (numeral 16 d), rest) := by
  obtain ⟨c, d', rfl⟩ := List.exists_cons_of_ne_nil hne
  obtain ⟨hspace, hplus, hminus, -⟩ := of_isDigit (hdigits c List.mem_cons_self)
  have hnum : numeral 16 (c :: d') < 2 ^ 32 := by
    have hlt := numeral_lt hdigits
    have hle : 16 ^ (c :: d').length ≤ 16 ^ 2 := Nat.pow_le_pow_right (by omega) hlen
    omega
  have hnumber : scanNumber F false (c :: d' ++ rest) =
      some (.ofNat (numeral 16 (c :: d')), rest) := by
    rw [scanNumber_eq, scanDigits]
    · obtain ⟨htake, hdrop⟩ := takeWhile_field hdigits hrest
      simp only [htake, hdrop, List.cons_ne_nil, if_false, Scanf.store, if_pos hnum]
      rfl
    · intro x t heq
      obtain ⟨rfl, htail⟩ := List.cons.inj heq
      cases d' with
      | nil => exact hx rfl x t htail
      | cons e d' =>
        obtain ⟨rfl, -⟩ := List.cons.inj htail
        have he := of_isDigit (hdigits e (by simp))
        exact not_or.mpr he.2.2.2
  rw [scanHex, List.cons_append, List.dropWhile_cons_of_neg (by simpa using hspace)]
  split
  · rename_i t heq
    exact absurd (List.cons.inj heq).1 hplus
  · rename_i t heq
    exact absurd (List.cons.inj heq).1 hminus
  · exact hnumber

/-- A field `0` with an `x` behind it. -/
theorem scanHex_zero_x {x : UInt8} (hx : x = 120 ∨ x = 88) (t : StdString) :
    scanHex F (48 :: x :: t) =
      if t.takeWhile (isDigit 16) = [] then if F.bare then some (0, t) else none
      else some (F.store false (numeral 16 (t.takeWhile (isDigit 16))),
        t.dropWhile (isDigit 16)) := by
  rw [scanHex, List.dropWhile_cons_of_neg (by decide)]
  change scanNumber F false (48 :: x :: t) = _
  rw [scanNumber, if_pos hx, scanDigits]
  by_cases hnil : t.takeWhile (isDigit 16) = []
  · simp only [if_pos hnil]
  · simp only [if_neg hnil]

/-! ## All conversions -/

theorem scanFields_fields {fields : List StdString} {last : StdString}
    (h : ∀ d ∈ fields, IsField d) (rest : StdString) :
    scanFields F (fields.length + 1) ([58].intercalate (fields ++ [last]) ++ rest) =
      fields.map (fun d => .ofNat (numeral 16 d)) ++
        ((scanHex F (last ++ rest)).map Prod.fst).toList := by
  induction fields with
  | nil =>
    rw [List.nil_append, List.intercalate_singleton, List.length_nil, scanFields]
    cases scanHex F (last ++ rest) with
    | none => rfl
    | some r =>
      obtain ⟨v, t⟩ := r
      dsimp only
      split <;> rfl
  | cons d fields ih =>
    obtain ⟨⟨hne, hlen, hdigits⟩, hfields⟩ := List.forall_mem_cons.mp h
    rw [List.cons_append, List.intercalate_cons_of_ne_nil (by simp), List.append_assoc,
      List.append_assoc, List.length_cons, scanFields,
      scanHex_field hne hlen hdigits (fun c t ht => by
        obtain ⟨rfl, -⟩ := List.cons.inj ht
        decide) (fun _ x t ht => by
        obtain ⟨rfl, -⟩ := List.cons.inj ht
        decide)]
    simp only [List.nil_append, ih hfields, List.map_cons, List.cons_append]

/-- The first five octets and what the last conversion stores. -/
theorem stdStringToMac_fields {fields : List StdString} {last : StdString}
    (hlen : fields.length = 5) (h : ∀ d ∈ fields, IsField d)
    (tmp : Fin HAL_MAC_ADDR_LEN → UInt32) :
    stdStringToMac F tmp ([58].intercalate (fields ++ [last]) ++ rest) =
      (true, fun ix => if ix = 5 then
          (((scanHex F (last ++ rest)).map Prod.fst).getD (tmp 5)).toUInt8
        else octets (fields ++ [last]) ix) := by
  have hread : scanFields F HAL_MAC_ADDR_LEN ([58].intercalate (fields ++ [last]) ++ rest) =
      fields.map (fun d => .ofNat (numeral 16 d)) ++
        ((scanHex F (last ++ rest)).map Prod.fst).toList := by
    rw [← scanFields_fields h, hlen]
  rw [stdStringToMac, hread]
  refine Prod.ext rfl (funext fun ix => ?_)
  by_cases hix : ix = 5
  · subst hix
    have h5 : (5 : Fin HAL_MAC_ADDR_LEN).val = (fields.map fun d =>
        UInt32.ofNat (numeral 16 d)).length := by rw [List.length_map, hlen]; rfl
    dsimp only
    rw [if_pos rfl, h5, List.getElem?_append_right le_rfl, Nat.sub_self]
    cases (scanHex F (last ++ rest)).map Prod.fst <;> rfl
  · have hne : ix.val ≠ 5 := fun h => hix (Fin.ext h)
    have hix : ix.val < 6 := ix.isLt
    have hlt : ix.val < fields.length := by omega
    dsimp only
    rw [if_neg (fun h => hne (congrArg Fin.val h)), List.getElem?_append_left (by simpa using hlt),
      List.getElem?_map, List.getElem?_eq_getElem hlt, octets, List.getD_eq_getElem?_getD,
      List.getElem?_append_left hlt, List.getElem?_eq_getElem hlt]
    exact UInt32.toUInt8_ofNat' _

theorem octets_last {fields : List StdString} {last : StdString} (hlen : fields.length = 5) :
    octets (fields ++ [last]) 5 = .ofNat (numeral 16 last) := by
  rw [octets, List.getD_eq_getElem?_getD, List.getElem?_append_right (by rw [hlen]; rfl), hlen]
  rfl

/-- An address whose last field is read alone. -/
theorem accepts_mac {s : StdString} {fields : List StdString} (h : IsMac s fields rest)
    (hmis : ¬ Misread F fields rest) (tmp : Fin HAL_MAC_ADDR_LEN → UInt32) :
    stdStringToMac F tmp s = (true, octets fields) := by
  obtain ⟨rfl, hlen, hfields, hends⟩ := h
  rcases fields.eq_nil_or_concat' with rfl | ⟨init, last, rfl⟩
  · simp at hlen
  have hinit : init.length = 5 := by simpa [HAL_MAC_ADDR_LEN] using hlen
  obtain ⟨hne, hlast, hdigits⟩ := hfields last (by simp)
  rw [stdStringToMac_fields hinit (fun d hd => hfields d (by simp [hd]))]
  refine Prod.ext rfl (funext fun ix => ?_)
  dsimp only
  by_cases hix : ix = 5
  · subst hix
    rw [if_pos rfl, octets_last hinit]
    by_cases hx : last = [48] ∧ ∃ x t, rest = x :: t ∧ (x = 120 ∨ x = 88)
    · obtain ⟨rfl, x, t, rfl, hx⟩ := hx
      rw [List.singleton_append, scanHex_zero_x hx]
      have hnum : ¬ if t.takeWhile (isDigit 16) = [] then F.bare = false
          else (F.store false (numeral 16 (t.takeWhile (isDigit 16)))).toUInt8 ≠ 0 :=
        fun hnum => hmis ⟨by simp, x, t, rfl, hx, hnum⟩
      split_ifs at hnum ⊢ with hnil hbare
      · rfl
      · exact absurd (Bool.eq_false_of_not_eq_true hbare) hnum
      · exact not_not.mp hnum
    · rw [scanHex_field hne hlast hdigits hends fun h0 x t ht hx' => hx ⟨h0, x, t, ht, hx'⟩]
      exact UInt32.toUInt8_ofNat' _
  · rw [if_neg hix]

theorem not_accepts_of_misread {s : StdString} {fields : List StdString}
    (h : IsMac s fields rest) (hmis : Misread F fields rest) :
    stdStringToMac F (fun _ => 1) s ≠ (true, octets fields) := by
  obtain ⟨rfl, hlen, hfields, -⟩ := h
  obtain ⟨hlast, x, t, rfl, hx, hnum⟩ := hmis
  obtain ⟨init, rfl⟩ := List.getLast?_eq_some_iff.mp hlast
  have hinit : init.length = 5 := by simpa [HAL_MAC_ADDR_LEN] using hlen
  rw [stdStringToMac_fields hinit (fun d hd => hfields d (by simp [hd])), List.singleton_append,
    scanHex_zero_x hx]
  intro heq
  have h5 := congrFun (congrArg Prod.snd heq) 5
  dsimp only at h5
  rw [if_pos rfl, octets_last hinit] at h5
  split_ifs at hnum h5 with hnil hbare
  · exact absurd hbare (by simp [hnum])
  · exact absurd h5 (by decide)
  · exact hnum h5

/-! ## The round trip -/

theorem hexDigit_spec : ∀ n < 16, isDigit 16 (hexDigit n) ∧ (digitValue (hexDigit n)).getD 0 = n ∧
    hexDigit n ≠ 0 := by
  decide

theorem isField_hex2 (b : UInt8) : IsField (hex2 b) ∧ numeral 16 (hex2 b) = b.toNat ∧
    0 ∉ hex2 b := by
  have hb := b.toNat_lt
  obtain ⟨hd, hv, hz⟩ := hexDigit_spec (b.toNat / 16) (by omega)
  obtain ⟨hd', hv', hz'⟩ := hexDigit_spec (b.toNat % 16) (by omega)
  refine ⟨⟨by simp [hex2], by simp [hex2], by simp [hex2, hd, hd']⟩, ?_, ?_⟩
  · simp only [hex2, numeral, List.foldl_cons, List.foldl_nil, hv, hv']
    omega
  · simp [hex2, Ne.symm hz, Ne.symm hz']

theorem cStr_append_nul {s t : StdString} (h : 0 ∉ s) : StdString.cStr (s ++ 0 :: t) = s := by
  have hs : ∀ c ∈ s, decide (c ≠ 0) := by
    intro c hc
    have hne : c ≠ 0 := fun h0 => h (h0 ▸ hc)
    simpa using hne
  rw [StdString.cStr, List.takeWhile_append_of_pos hs, List.takeWhile_cons_of_neg (by simp),
    List.append_nil]

/-- What `std_mac_to_string` writes into a buffer that is large enough is an address. -/
theorem isMac_stdMacToString (mac : HalMacAddr) (buff : List UInt8) {len : Nat} (hlen : 18 ≤ len) :
    IsMac (StdString.cStr (stdMacToString mac buff len)) (List.ofFn fun ix => hex2 (mac ix)) [] := by
  have hnul (ix : Fin HAL_MAC_ADDR_LEN) : 0 ∉ hex2 (mac ix) := (isField_hex2 _).2.2
  refine ⟨?_, by simp, ?_, by simp⟩
  · rw [stdMacToString, snprintf, if_neg (by omega)]
    dsimp only
    rw [List.take_of_length_le (by simp [hex2]; omega), List.append_assoc, List.singleton_append,
      cStr_append_nul]
    · simp [List.ofFn_succ, List.intercalate_cons_cons]
    · simp [hnul]
  · intro d hd
    obtain ⟨ix, rfl⟩ := List.mem_ofFn.mp hd
    exact (isField_hex2 _).1

theorem octets_hex2 (mac : HalMacAddr) : octets (List.ofFn fun ix => hex2 (mac ix)) = mac := by
  funext ix
  rw [octets, List.getD_eq_getElem?_getD, List.getElem?_eq_getElem (by simp), List.getElem_ofFn,
    Option.getD_some, (isField_hex2 _).2.1]
  exact UInt8.ofNat_toNat

theorem round_trip (mac : HalMacAddr) (buff : List UInt8) {len : Nat} (hlen : 18 ≤ len)
    (tmp : Fin HAL_MAC_ADDR_LEN → UInt32) :
    stdStringToMac F tmp (StdString.cStr (stdMacToString mac buff len)) = (true, mac) := by
  rw [accepts_mac (isMac_stdMacToString mac buff hlen) (by rintro ⟨-, x, t, h, -⟩; cases h),
    octets_hex2]

/-! ## The result -/

/-- The parser takes exactly the addresses and stores their octets only for the strings that are
addresses whose last octet is not read together with what follows it. -/
theorem reads_mac_iff (F : Scanf) (s : StdString) :
    ReadsMac F s ↔ (∃ fields rest, IsMac s fields rest) ∧
      ∀ fields rest, IsMac s fields rest → ¬ Misread F fields rest := by
  constructor
  · rintro ⟨haccepts, hrejects, -⟩
    refine ⟨?_, fun fields rest h hmis =>
      not_accepts_of_misread h hmis (haccepts fields rest h _)⟩
    by_contra hno
    simp only [not_exists] at hno
    have hfalse := hrejects hno (fun _ => 0) (fun _ => 0)
    exact absurd (congrArg Prod.fst hfalse) (by simp [stdStringToMac])
  · rintro ⟨⟨fields, rest, h⟩, hmis⟩
    exact ⟨fun fields rest h tmp => accepts_mac h (hmis fields rest h) tmp,
      fun hno => absurd h (hno fields rest),
      fun mac buff len hlen _ tmp => round_trip mac buff hlen tmp⟩

/-- An empty string is taken for an address. -/
theorem empty_string_taken : ¬ ∀ (F : Scanf) (s : StdString), ReadsMac F s := by
  intro h
  have hno : ∀ fields rest, ¬ IsMac [] fields rest := by
    rintro fields rest ⟨heq, hlen, -, -⟩
    obtain ⟨d, e, fields, rfl⟩ : ∃ d e fs, fields = d :: e :: fs := by
      match fields, hlen with
      | d :: e :: fs, _ => exact ⟨d, e, fs, rfl⟩
    rw [List.intercalate_cons_cons] at heq
    simp at heq
  have hfalse := (h ⟨fun _ _ => 0, false⟩ []).rejects hno (fun _ => 0) (fun _ => 0)
  exact absurd (congrArg Prod.fst hfalse) (by decide)

end OpxCommonUtils.Net
