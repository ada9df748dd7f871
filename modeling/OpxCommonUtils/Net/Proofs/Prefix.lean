import OpxCommonUtils.Net.Prefix
import OpxCommonUtils.Text.Proofs.Split

/-!
# Which strings are IP prefixes

The tokenizer makes two parts of `a/d` and of `a/d/`, and `strtoul` with the base 0 takes every
string for a number. A decimal number comes out of it, but one with a leading 0 is read as octal.
-/

namespace OpxCommonUtils.Net

open Text StdString

/-- A decimal number, and its value. -/
def Decimal (d : StdString) (n : Nat) : Prop :=
  d ≠ [] ∧ (∀ c ∈ d, isDigit 10 c) ∧ numeral 10 d = n

/-- The string is an address and a prefix length of it. -/
def IsIpPrefix (R : Resolver) (s : StdString) (fam : Family) (bytes : List UInt8) (n : Nat) :
    Prop :=
  ∃ a d, s = a ++ 47 :: d ∧ 47 ∉ a ∧ R.getaddrinfo a = some fam ∧
    R.inetPton fam a = some bytes ∧ Decimal d n ∧ n ≤ fam.width

/-- The holder has the address. -/
def StdIpAddr.Is (holder : StdIpAddr) (fam : Family) (bytes : List UInt8) : Prop :=
  holder.afIndex = some fam ∧ holder.u.take bytes.length = bytes

/-- What is promised of the parser. -/
structure ParsesPrefix (R : Resolver) (s : StdString) (res : Bool × StdIpAddr × Nat) : Prop where
  accepts : res.1 = true ↔ ∃ fam bytes n, IsIpPrefix R s fam bytes n
  stores : ∀ fam bytes n, IsIpPrefix R s fam bytes n → res.2.1.Is fam bytes ∧ res.2.2 = n

/-- Behind a numeric address and the first `/` stands nothing, or a further `/` with something
behind it, or a decimal number in range that does not begin with 0 unless it is below 8. -/
def CleanPrefix (R : Resolver) (s : StdString) : Prop :=
  ∀ a rest fam bytes, s = a ++ 47 :: rest → 47 ∉ a → R.getaddrinfo a = some fam →
    R.inetPton fam a = some bytes →
    rest = [] ∨ (∃ d e, rest = d ++ 47 :: e ∧ e ≠ []) ∨
      ∃ n, Decimal rest n ∧ n ≤ fam.width ∧ (rest.head? = some 48 → n < 8)

/-! ## The parts -/

/-- The two parts, if there are two tokens. -/
def twoParts : List StdString → Option (StdString × StdString)
  | [ipPart, lenPart] => some (ipPart, lenPart)
  | _ => none

section
variable {R : Resolver} {s a d rest : StdString} {n : Nat}

theorem splice_of_parts {ts : List StdString} (hs : 0 ∉ s) (hsplit : Splitting [47] s ts)
    (hparse : stdParseString s [47] = .ok (some ts)) :
    stdSplicePrefixString s = .ok (twoParts ts) := by
  have hnul : ∀ t ∈ ts, 0 ∉ t := fun t ht h => hs (hsplit.mem_of_mem t ht h)
  rw [stdSplicePrefixString, hparse, exec_bind_ok]
  dsimp only
  rw [parseStringNext_eq hnul]
  dsimp only
  rw [parseStringNext_eq hnul]
  match ts with
  | [] => rfl
  | [_] => rfl
  | [_, _] => rfl
  | _ :: _ :: _ :: _ => rw [if_pos (by simp [stdParseStringNumTokens])]; rfl

/-- Without a `/` there is one part at most. -/
theorem splice_of_not_mem (hs : 0 ∉ s) (h : 47 ∉ s) : stdSplicePrefixString s = .ok none := by
  obtain ⟨ts, hsplit, hparse⟩ := parseString_splitting hs (by simp : ([47] : StdString) ≠ [])
  rw [splice_of_parts hs hsplit hparse]
  by_cases hnil : s = []
  · rw [(hsplit.eq_nil_iff (by simp)).mpr hnil]
    rfl
  · rw [hsplit.of_not_mem hnil h]
    rfl

theorem splice_of_mem (hs : 0 ∉ a ++ 47 :: rest) (ha : 47 ∉ a) :
    ∃ us, Splitting [47] rest us ∧
      stdSplicePrefixString (a ++ 47 :: rest) = .ok (twoParts (a :: us)) := by
  obtain ⟨ts, hsplit, hparse⟩ := parseString_splitting hs (by simp : ([47] : StdString) ≠ [])
  obtain ⟨us, rfl, hrest⟩ := hsplit.of_append ha
  exact ⟨us, hrest, splice_of_parts hs hsplit hparse⟩

/-! ## The number -/

theorem takeSign_digit {c : UInt8} (hc : isDigit 10 c) (t : StdString) :
    takeSign (c :: t) = (false, c :: t) := by
  unfold takeSign
  split
  · next heq =>
    obtain ⟨rfl, -⟩ := List.cons.inj heq
    exact absurd hc (by decide)
  · next heq =>
    obtain ⟨rfl, -⟩ := List.cons.inj heq
    exact absurd hc (by decide)
  · rfl

theorem detectBase_digits {c : UInt8} {t : StdString} (hdig : ∀ x ∈ c :: t, isDigit 10 x) :
    detectBase (c :: t) = (if c = 48 then 8 else 10, c :: t) := by
  unfold detectBase
  split
  · next x d rest heq =>
    obtain ⟨rfl, rfl⟩ := List.cons.inj heq
    have hx : isDigit 10 x := hdig x (by simp)
    have hnot : ¬ ((x = 120 ∨ x = 88) ∧ isDigit 16 d) := by
      rintro ⟨rfl | rfl, -⟩
      · exact absurd hx (by decide)
      · exact absurd hx (by decide)
    rw [if_neg hnot, if_pos rfl]
  · next heq =>
    obtain ⟨rfl, -⟩ := List.cons.inj heq
    rw [if_pos rfl]
  · next hne =>
    have hc : c ≠ 48 := by
      rintro rfl
      exact hne t rfl
    rw [if_neg hc]

theorem strtoul_base {d : StdString} (hne : d ≠ []) (hdig : ∀ c ∈ d, isDigit 10 c)
    (hsmall : numeral 10 d < 2 ^ 64) :
    strtoul d = if d.head? = some 48 then numeral 8 (d.takeWhile (isDigit 8)) else
      numeral 10 d := by
  obtain ⟨c, t, rfl⟩ := List.exists_cons_of_ne_nil hne
  have hc := hdig c List.mem_cons_self
  have hspace : ¬ isspace c = true := by
    have hrange := isDigit_ten hc
    simp only [isspace, decide_eq_true_eq, UInt8.le_iff_toNat_le, UInt8.reduceToNat]
    rintro (rfl | hle)
    · simp at hrange
    · omega
  have hskip : (c :: t).dropWhile isspace = c :: t := List.dropWhile_cons_of_neg hspace
  have hoct : numeral 8 ((c :: t).takeWhile (isDigit 8)) ≤ numeral 10 (c :: t) := by
    calc numeral 8 ((c :: t).takeWhile (isDigit 8))
        ≤ numeral 10 ((c :: t).takeWhile (isDigit 8)) := numeral_le_numeral (by decide) _
      _ ≤ numeral 10 ((c :: t).takeWhile (isDigit 8) ++ (c :: t).dropWhile (isDigit 8)) :=
        numeral_le_append (by decide) _ _
      _ = numeral 10 (c :: t) := by rw [List.takeWhile_append_dropWhile]
  rw [strtoul, hskip, takeSign_digit hc]
  dsimp only
  rw [detectBase_digits hdig]
  dsimp only
  by_cases h48 : c = 48
  · have hhead : (c :: t).head? = some 48 := congrArg some h48
    rw [if_pos h48, if_neg (by omega), if_pos hhead]
    rfl
  · have hall : (c :: t).takeWhile (isDigit 10) = c :: t := List.takeWhile_eq_self_iff.mpr hdig
    have hhead : (c :: t).head? ≠ some 48 := fun heq => h48 (Option.some.inj heq)
    rw [if_neg h48, hall, if_neg (by omega), if_neg hhead]
    rfl

/-- `strtoul` reads a decimal number as it is, or its octal digits. -/
theorem strtoul_decimal_iff {d : StdString} {n : Nat} (h : Decimal d n) (hn : n ≤ 128) :
    strtoul d % 2 ^ 8 = n ↔ (d.head? = some 48 → n < 8) := by
  obtain ⟨hne, hdig, rfl⟩ := h
  rw [strtoul_base hne hdig (by omega)]
  split
  · next hzero =>
    rw [forall_prop_of_true hzero]
    by_cases hoct : ∀ c ∈ d, isDigit 8 c
    · have hle := numeral_le_numeral (by decide : 8 ≤ 10) d
      rw [List.takeWhile_eq_self_iff.mpr hoct, Nat.mod_eq_of_lt (by omega)]
      exact numeral_eq_iff (by decide) (by decide) hoct
    · -- what is behind a digit 8 or 9 is not read
      obtain ⟨c, es, hd, hc⟩ := exists_not_digit hoct
      have hc10 : isDigit 10 c := hdig c (hd ▸ List.mem_append_right _ List.mem_cons_self)
      obtain ⟨hlt, hle⟩ := numeral_lt_of_not_digit (by decide) (by decide : 8 ≤ 10) hc10 hc
        (d.takeWhile (isDigit 8)) es
      rw [← hd] at hlt hle
      rw [Nat.mod_eq_of_lt (by omega)]
      exact iff_of_false hlt.ne (by omega)
  · next hzero =>
    rw [Nat.mod_eq_of_lt (by omega)]
    exact iff_of_true rfl fun h => absurd h hzero

/-! ## The parser -/

theorem slash_not_digit (h : Decimal d n) : 47 ∉ d :=
  fun hin => absurd (h.2.1 47 hin) (by decide)

theorem isIpPrefix_iff (ha : 47 ∉ a) {fam : Family} {bytes : List UInt8} {n : Nat} :
    IsIpPrefix R (a ++ 47 :: rest) fam bytes n ↔ R.getaddrinfo a = some fam ∧
      R.inetPton fam a = some bytes ∧ Decimal rest n ∧ n ≤ fam.width := by
  constructor
  · rintro ⟨a', d, heq, ha', h⟩
    obtain ⟨rfl, rfl⟩ := append_cons_cancel ha ha' heq
    exact h
  · intro h
    exact ⟨a, rest, rfl, ha, h⟩

theorem cleanPrefix_iff (ha : 47 ∉ a) {fam : Family} {bytes : List UInt8}
    (hfam : R.getaddrinfo a = some fam) (hbytes : R.inetPton fam a = some bytes) :
    CleanPrefix R (a ++ 47 :: rest) ↔ rest = [] ∨ (∃ d e, rest = d ++ 47 :: e ∧ e ≠ []) ∨
      ∃ n, Decimal rest n ∧ n ≤ fam.width ∧ (rest.head? = some 48 → n < 8) := by
  constructor
  · intro h
    exact h a rest fam bytes rfl ha hfam hbytes
  · intro h a' rest' fam' bytes' heq ha' hfam' hbytes'
    obtain ⟨rfl, rfl⟩ := append_cons_cancel ha ha' heq
    obtain rfl := Option.some.inj (hfam.symm.trans hfam')
    exact h

/-- A string that is not taken, and is no prefix. -/
theorem parses_of_none {holder : StdIpAddr} {maskLen : Nat}
    (h : stdSplicePrefixString s = .ok none)
    (hnot : ∀ fam bytes n, ¬ IsIpPrefix R s fam bytes n) :
    Delivers (stdStrToIpPrefix R s holder maskLen) (ParsesPrefix R s) := by
  rw [stdStrToIpPrefix, h, exec_bind_ok]
  refine delivers_ok.mpr ⟨iff_of_false (by simp) ?_, fun fam bytes n hs => absurd hs (hnot _ _ _)⟩
  rintro ⟨fam, bytes, n, hs⟩
  exact hnot _ _ _ hs

theorem stdStrToIp_of_numeric {fam : Family} {bytes : List UInt8}
    (hfam : R.getaddrinfo a = some fam) (hbytes : R.inetPton fam a = some bytes)
    (holder : StdIpAddr) :
    ∃ holder', stdStrToIp R a holder = (true, holder') ∧ holder'.Is fam bytes := by
  refine ⟨⟨some fam, bytes ++ holder.u.drop bytes.length⟩, ?_, rfl, List.take_left⟩
  rw [stdStrToIp, stdGetIpType, hfam]
  dsimp only
  rw [hbytes]

theorem stdStrToIp_of_not_numeric
    (h : ¬ ∃ fam bytes, R.getaddrinfo a = some fam ∧ R.inetPton fam a = some bytes)
    (holder : StdIpAddr) : ∃ holder', stdStrToIp R a holder = (false, holder') := by
  rw [stdStrToIp, stdGetIpType]
  cases hfam : R.getaddrinfo a with
  | none => exact ⟨holder, rfl⟩
  | some fam =>
    dsimp only
    cases hbytes : R.inetPton fam a with
    | none => exact ⟨_, rfl⟩
    | some bytes => exact absurd ⟨fam, bytes, hfam, hbytes⟩ h

/-- What a string without a numeric address comes to. -/
theorem parses_of_not_numeric (hs : 0 ∉ a ++ 47 :: rest) (ha : 47 ∉ a)
    (h : ¬ ∃ fam bytes, R.getaddrinfo a = some fam ∧ R.inetPton fam a = some bytes)
    (holder : StdIpAddr) (maskLen : Nat) :
    Delivers (stdStrToIpPrefix R (a ++ 47 :: rest) holder maskLen)
      (ParsesPrefix R (a ++ 47 :: rest)) := by
  have hnot : ∀ fam bytes n, ¬ IsIpPrefix R (a ++ 47 :: rest) fam bytes n := by
    intro fam bytes n hprefix
    obtain ⟨hfam, hbytes, -⟩ := (isIpPrefix_iff ha).mp hprefix
    exact h ⟨fam, bytes, hfam, hbytes⟩
  obtain ⟨us, -, hsplice⟩ := splice_of_mem hs ha
  match us with
  | [] => exact parses_of_none hsplice hnot
  | [d] =>
    obtain ⟨holder', hholder⟩ := stdStrToIp_of_not_numeric h holder
    rw [stdStrToIpPrefix, hsplice, exec_bind_ok]
    simp only [twoParts]
    rw [hholder]
    refine delivers_ok.mpr ⟨iff_of_false (by simp) ?_, fun fam bytes n hp => absurd hp (hnot _ _ _)⟩
    rintro ⟨fam, bytes, n, hp⟩
    exact hnot _ _ _ hp
  | _ :: _ :: _ => exact parses_of_none hsplice hnot

/-- What a numeric address with one part behind it comes to. -/
theorem parses_of_part_iff (ha : 47 ∉ a) {fam : Family} {bytes : List UInt8}
    (hfam : R.getaddrinfo a = some fam) (hbytes : R.inetPton fam a = some bytes)
    (hsplice : stdSplicePrefixString (a ++ 47 :: rest) = .ok (some (a, d))) (holder : StdIpAddr)
    (maskLen : Nat) :
    Delivers (stdStrToIpPrefix R (a ++ 47 :: rest) holder maskLen)
        (ParsesPrefix R (a ++ 47 :: rest)) ↔
      ∃ n, Decimal rest n ∧ n ≤ fam.width ∧ strtoul d % 2 ^ 8 = n := by
  obtain ⟨holder', hholder, his⟩ := stdStrToIp_of_numeric hfam hbytes holder
  have hrun : stdStrToIpPrefix R (a ++ 47 :: rest) holder maskLen =
      .ok (true, holder', strtoul d % 2 ^ 8) := by
    rw [stdStrToIpPrefix, hsplice, exec_bind_ok]
    dsimp only
    rw [hholder]
    rfl
  rw [hrun, delivers_ok]
  constructor
  · rintro ⟨haccepts, hstores⟩
    obtain ⟨fam', bytes', n, hp⟩ := haccepts.mp rfl
    have hvalue := (hstores _ _ _ hp).2
    obtain ⟨hfam', -, hdec, hn⟩ := (isIpPrefix_iff ha).mp hp
    obtain rfl := Option.some.inj (hfam.symm.trans hfam')
    exact ⟨n, hdec, hn, hvalue⟩
  · rintro ⟨n, hdec, hn, hvalue⟩
    refine ⟨iff_of_true rfl ⟨fam, bytes, n, (isIpPrefix_iff ha).mpr ⟨hfam, hbytes, hdec, hn⟩⟩, ?_⟩
    intro fam' bytes' n' hp
    obtain ⟨hfam', hbytes', hdec', -⟩ := (isIpPrefix_iff ha).mp hp
    obtain rfl := Option.some.inj (hfam.symm.trans hfam')
    obtain rfl := Option.some.inj (hbytes.symm.trans hbytes')
    exact ⟨his, hvalue.trans (hdec.2.2.symm.trans hdec'.2.2)⟩

theorem Family.width_le (fam : Family) : fam.width ≤ 128 := by cases fam <;> decide

/-- A numeric address with something behind the first `/`. -/
theorem parses_of_numeric_iff (hs : 0 ∉ a ++ 47 :: rest) (ha : 47 ∉ a) {fam : Family}
    {bytes : List UInt8} (hfam : R.getaddrinfo a = some fam)
    (hbytes : R.inetPton fam a = some bytes) (holder : StdIpAddr) (maskLen : Nat) :
    Delivers (stdStrToIpPrefix R (a ++ 47 :: rest) holder maskLen)
        (ParsesPrefix R (a ++ 47 :: rest)) ↔
      rest = [] ∨ (∃ d e, rest = d ++ 47 :: e ∧ e ≠ []) ∨
        ∃ n, Decimal rest n ∧ n ≤ fam.width ∧ (rest.head? = some 48 → n < 8) := by
  obtain ⟨us, hsplit, hsplice⟩ := splice_of_mem hs ha
  have hnone : (∀ n, ¬ Decimal rest n) →
      ∀ fam bytes n, ¬ IsIpPrefix R (a ++ 47 :: rest) fam bytes n :=
    fun h fam bytes n hp => h n ((isIpPrefix_iff ha).mp hp).2.2.1
  by_cases hnil : rest = []
  · rw [(hsplit.eq_nil_iff (by simp)).mpr hnil] at hsplice
    exact iff_of_true (parses_of_none hsplice (hnone fun n h => h.1 hnil)) (.inl hnil)
  rw [or_iff_right hnil]
  by_cases hslash : 47 ∈ rest
  · have hdec : ∀ n, ¬ Decimal rest n := fun n h => slash_not_digit h hslash
    obtain ⟨d, e, rfl, hd⟩ := List.eq_append_cons_of_mem hslash
    obtain ⟨us, rfl, he⟩ := hsplit.of_append hd
    by_cases hend : e = []
    · -- a `/` at the end is dropped
      rw [(he.eq_nil_iff (by simp)).mpr hend] at hsplice
      rw [parses_of_part_iff ha hfam hbytes hsplice]
      refine iff_of_false ?_ ?_
      · rintro ⟨n, h, -⟩
        exact hdec n h
      · rintro (⟨d', e', heq, he'⟩ | ⟨n, h, -⟩)
        · obtain ⟨e', x, rfl⟩ := e'.eq_nil_or_concat'.resolve_left he'
          have hinner : d = d' ++ 47 :: e' := by
            rw [hend, ← List.cons_append, ← List.append_assoc] at heq
            exact (List.append_inj' heq rfl).1
          exact hd (hinner ▸ by simp)
        · exact hdec n h
    · obtain ⟨u, us, rfl⟩ := List.exists_cons_of_ne_nil ((he.eq_nil_iff (by simp)).not.mpr hend)
      exact iff_of_true (parses_of_none hsplice (hnone hdec)) (.inl ⟨d, e, rfl, hend⟩)
  · rw [hsplit.of_not_mem hnil hslash] at hsplice
    rw [parses_of_part_iff ha hfam hbytes hsplice]
    have hno : ¬ ∃ d e, rest = d ++ 47 :: e ∧ e ≠ [] := by
      rintro ⟨d, e, rfl, -⟩
      exact hslash (by simp)
    rw [or_iff_right hno]
    refine exists_congr fun n => and_congr_right fun hdec => and_congr_right fun hn => ?_
    exact strtoul_decimal_iff hdec (hn.trans fam.width_le)

/-- The parser takes a string exactly if it is an address and a prefix length, and then stores these,
exactly under the condition `CleanPrefix`. -/
theorem str_to_ip_prefix_iff (R : Resolver) {s : StdString} (hs : 0 ∉ s) (holder : StdIpAddr)
    (maskLen : Nat) :
    Delivers (stdStrToIpPrefix R s holder maskLen) (ParsesPrefix R s) ↔ CleanPrefix R s := by
  by_cases hslash : 47 ∈ s
  · obtain ⟨a, rest, rfl, ha⟩ := List.eq_append_cons_of_mem hslash
    by_cases h : ∃ fam bytes, R.getaddrinfo a = some fam ∧ R.inetPton fam a = some bytes
    · obtain ⟨fam, bytes, hfam, hbytes⟩ := h
      rw [parses_of_numeric_iff hs ha hfam hbytes, cleanPrefix_iff ha hfam hbytes]
    · refine iff_of_true (parses_of_not_numeric hs ha h holder maskLen) ?_
      intro a' rest' fam bytes heq ha' hfam hbytes
      obtain ⟨rfl, -⟩ := append_cons_cancel ha ha' heq
      exact absurd ⟨fam, bytes, hfam, hbytes⟩ h
  · have hnot : ∀ fam bytes n, ¬ IsIpPrefix R s fam bytes n := by
      rintro fam bytes n ⟨a, d, rfl, -⟩
      exact hslash (by simp)
    refine iff_of_true (parses_of_none (splice_of_not_mem hs hslash) hnot) ?_
    rintro a rest fam bytes rfl
    exact absurd (by simp) hslash

/-- A system that knows the address 1.2.3.4. -/
def oneAddress : Resolver where
  getaddrinfo a := if a = [49, 46, 50, 46, 51, 46, 52] then some .inet else none
  inetPton _ a := if a = [49, 46, 50, 46, 51, 46, 52] then some [1, 2, 3, 4] else none

/-- The prefix 1.2.3.4/24. -/
theorem str_to_ip_prefix_sample :
    Delivers (stdStrToIpPrefix oneAddress [49, 46, 50, 46, 51, 46, 52, 47, 50, 52]
        ⟨none, List.replicate 16 0⟩ 0)
      (ParsesPrefix oneAddress [49, 46, 50, 46, 51, 46, 52, 47, 50, 52]) := by
  refine (str_to_ip_prefix_iff oneAddress (by decide) _ 0).mpr ?_
  have ha : (47 : UInt8) ∉ [49, 46, 50, 46, 51, 46, 52] := by decide
  have hfam : oneAddress.getaddrinfo [49, 46, 50, 46, 51, 46, 52] = some .inet := rfl
  have hbytes : oneAddress.inetPton .inet [49, 46, 50, 46, 51, 46, 52] = some [1, 2, 3, 4] := rfl
  have hdigits : ∀ c ∈ ([50, 52] : StdString), isDigit 10 c := by
    simp only [List.forall_mem_cons, List.not_mem_nil, false_implies, implies_true, and_true]
    exact ⟨rfl, rfl⟩
  have hdec : Decimal [50, 52] 24 := ⟨by simp, hdigits, rfl⟩
  exact (cleanPrefix_iff ha hfam hbytes).mpr (.inr (.inr ⟨24, hdec, by decide, by decide⟩))

/-- The length 33 of an IPv4 address is taken. -/
theorem long_prefix_taken : ¬ ∀ (R : Resolver) (s : StdString) (holder : StdIpAddr)
    (maskLen : Nat), 0 ∉ s → Delivers (stdStrToIpPrefix R s holder maskLen) (ParsesPrefix R s) := by
  intro hclaim
  have hs : (0 : UInt8) ∉ [49, 46, 50, 46, 51, 46, 52] ++ 47 :: [51, 51] := by decide
  have h := hclaim oneAddress _ ⟨none, List.replicate 16 0⟩ 0 hs
  rw [parses_of_numeric_iff hs (by decide) rfl rfl] at h
  rcases h with hnil | ⟨d, e, heq, -⟩ | ⟨n, hdec, hn, -⟩
  · exact absurd hnil (by decide)
  · have hin : (47 : UInt8) ∈ [51, 51] := heq ▸ by simp
    exact absurd hin (by decide)
  · have hvalue : 33 = n := hdec.2.2
    have hwidth : n ≤ 32 := hn
    omega

end

end OpxCommonUtils.Net
