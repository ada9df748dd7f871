import OpxCommonUtils.Misc.Trimming
import OpxCommonUtils.Text.Trim

/-!
# What trimming leaves

`std_remove_leading_whitespace` leaves what `dropWhile` does. The loop of
`std_remove_trailing_whitespace` ends before it looks at the first character, and then leaves the
string as it was: it trims only if two characters stay (`rtrimBuf_spec`).
-/

namespace OpxCommonUtils.Text

open StdString

/-- The memory holds the string, and a NUL behind it. -/
def HoldsString (str : Mem) (s : StdString) : Prop := 0 ∉ s ∧ ∃ rest, str = s ++ 0 :: rest

/-- What the check tells of a character. -/
def matched : Option StdString → UInt8 → Bool
  | none => isspace
  | some fmt => fun c => fmt.contains c

/-- The string that the trailing trim leaves. -/
def keptByTrim (p : UInt8 → Bool) (s : StdString) : StdString :=
  if 2 ≤ (s.rdropWhile p).length then s.rdropWhile p else s

/-- Two characters stay, or nothing is to be trimmed. -/
def TrimsRight (p : UInt8 → Bool) (s : StdString) : Prop :=
  2 ≤ (s.rdropWhile p).length ∨ s.rdropWhile p = s

section
variable {str : Mem} {s : StdString} {check : CheckFun} {p : UInt8 → Bool}

theorem checkFor_eq {ws : Option StdString} (hws : ws ≠ some []) (c : UInt8) :
    checkFor ws c = .ok (matched ws c) := by
  cases ws with
  | none => rfl
  | some fmt =>
    have hlen : (fmt.length != 0) = true := by
      have hne : fmt ≠ [] := fun h => hws (h ▸ rfl)
      simpa using hne
    rw [checkFor, isCharMatchWrapper, hlen]
    rfl

theorem strlen_eq (h : HoldsString str s) : strlen str = .ok s.length := by
  obtain ⟨hnul, rest, rfl⟩ := h
  have hlen : (s ++ 0 :: rest).takeWhile (· ≠ (0 : UInt8)) = s := by
    rw [List.takeWhile_append_of_pos]
    · simp
    · intro c hc
      have hne : c ≠ 0 := fun heq => hnul (heq ▸ hc)
      simpa using hne
  rw [strlen, if_pos (by simp), cStr, hlen]

theorem charAt_append (a b : Mem) (c : UInt8) : charAt (a ++ c :: b) a.length = .ok c := by
  rw [charAt, Mem.load, if_pos (by simp), List.drop_left]
  rfl

/-- The loop of `ltrim` comes to the first character that is not matched. -/
theorem ltrimLoop_spec (hcheck : ∀ c, check c = .ok (p c)) (b rest : Mem) : ∀ a : Mem,
    ltrimLoop check (a ++ (b ++ rest)) b.length a.length =
      .ok (a.length + (b.takeWhile p).length) := by
  induction b with
  | nil => intro a; rfl
  | cons c b ih =>
    intro a
    rw [List.length_cons, ltrimLoop, List.cons_append, charAt_append, exec_bind_ok, hcheck,
      exec_bind_ok]
    by_cases hc : p c
    · have hnext := ih (a ++ [c])
      rw [List.length_append, List.length_singleton, List.append_assoc,
        List.singleton_append] at hnext
      rw [if_pos hc, hnext, List.takeWhile_cons_of_pos hc, List.length_cons]
      congr 1
      omega
    · rw [if_neg hc, List.takeWhile_cons_of_neg hc]
      rfl

theorem ltrimBuf_spec (hcheck : ∀ c, check c = .ok (p c)) (h : HoldsString str s) :
    Delivers (ltrimBuf check str) (HoldsString · (s.dropWhile p)) := by
  have hlen := strlen_eq h
  obtain ⟨hnul, rest, rfl⟩ := h
  have hkept : 0 ∉ s.dropWhile p := fun hin => hnul ((List.dropWhile_suffix p).subset hin)
  have hsplit := s.takeWhile_append_dropWhile (p := p)
  have hloop := ltrimLoop_spec hcheck s (0 :: rest) []
  rw [List.nil_append, List.length_nil, Nat.zero_add] at hloop
  rw [ltrimBuf, hlen, exec_bind_ok, hloop, exec_bind_ok]
  by_cases h0 : (s.takeWhile p).length = 0
  · rw [if_neg (not_not.mpr h0)]
    rw [List.eq_nil_of_length_eq_zero h0, List.nil_append] at hsplit
    exact delivers_ok.mpr ⟨hkept, rest, by rw [hsplit]⟩
  · have hmove : s.length - (s.takeWhile p).length + 1 = (s.dropWhile p ++ [0]).length := by
      have := congrArg List.length hsplit
      simp only [List.length_append, List.length_singleton] at this ⊢
      omega
    have hmem : s ++ 0 :: rest = s.takeWhile p ++ (s.dropWhile p ++ [0]) ++ rest := by
      rw [← List.append_assoc, hsplit]
      simp
    have hload : Mem.At (s ++ 0 :: rest) (s.takeWhile p).length (s.dropWhile p ++ [0]) :=
      ⟨_, rest, hmem, rfl⟩
    have hle := hload.le_length
    rw [if_pos h0, hmove, hload.load, exec_bind_ok, Mem.store, if_pos (by omega)]
    refine delivers_ok.mpr ⟨hkept, (s ++ 0 :: rest).drop (0 + (s.dropWhile p ++ [0]).length), ?_⟩
    rw [List.take_zero, List.nil_append, List.append_assoc]
    rfl

/-- The loop of `rtrim` at the end of `u`, with the first character `x` in front and what it has
passed behind. -/
theorem rtrimLoop_spec (hcheck : ∀ c, check c = .ok (p c)) (x : UInt8) (rest : Mem) (u : StdString) :
    ∀ v : StdString, ∃ rest', rtrimLoop check (x :: (u ++ (v ++ 0 :: rest))) u.length =
      .ok (if u.rdropWhile p = [] then x :: (u ++ (v ++ 0 :: rest))
        else x :: u.rdropWhile p ++ 0 :: rest') := by
  induction u using List.reverseRecOn with
  | nil => intro v; exact ⟨rest, rfl⟩
  | append_singleton u c ih =>
    intro v
    have hchar : charAt (x :: (u ++ [c] ++ (v ++ 0 :: rest))) (u.length + 1) = .ok c := by
      have := charAt_append (x :: u) (v ++ 0 :: rest) c
      simpa using this
    rw [List.length_append, List.length_singleton, rtrimLoop, hchar, exec_bind_ok, hcheck,
      exec_bind_ok]
    by_cases hc : p c
    · obtain ⟨rest', hrest⟩ := ih (c :: v)
      refine ⟨rest', ?_⟩
      rw [if_pos hc, List.rdropWhile_concat_pos _ _ _ hc]
      simpa using hrest
    · obtain ⟨b, tail, hb⟩ : ∃ b tail, v ++ 0 :: rest = b :: tail := by
        cases v with
        | nil => exact ⟨0, rest, rfl⟩
        | cons b v => exact ⟨b, v ++ 0 :: rest, rfl⟩
      refine ⟨tail, ?_⟩
      have htake : (x :: (u ++ [c] ++ b :: tail)).take (u.length + 2) = x :: (u ++ [c]) := by
        have hlen : u.length + 2 = (x :: (u ++ [c])).length := by simp
        rw [hlen]
        exact List.take_left
      have hdrop : (x :: (u ++ [c] ++ b :: tail)).drop (u.length + 2 + [(0 : UInt8)].length) =
          tail := by
        have hlen : u.length + 2 + [(0 : UInt8)].length = (x :: (u ++ [c] ++ [b])).length := by
          simp
        have hsplit : x :: (u ++ [c] ++ b :: tail) = x :: (u ++ [c] ++ [b]) ++ tail := by simp
        rw [hlen, hsplit]
        exact List.drop_left
      rw [if_neg hc, List.rdropWhile_concat_neg _ _ _ hc, if_neg (by simp), hb, Mem.store,
        if_pos (by simp), htake, hdrop]
      simp

theorem rtrimBuf_spec (hcheck : ∀ c, check c = .ok (p c)) (h : HoldsString str s) :
    Delivers (rtrimBuf check str) (HoldsString · (keptByTrim p s)) := by
  rw [rtrimBuf, strlen_eq h, exec_bind_ok]
  cases s with
  | nil =>
    exact delivers_ok.mpr h
  | cons x u =>
    obtain ⟨hnul, rest, rfl⟩ := h
    obtain ⟨rest', hloop⟩ := rtrimLoop_spec hcheck x rest u []
    rw [List.nil_append] at hloop
    rw [if_neg (by simp), List.length_cons, Nat.add_sub_cancel, List.cons_append, hloop]
    refine delivers_ok.mpr ?_
    rw [keptByTrim, rdropWhile_cons]
    by_cases hu : u.rdropWhile p = []
    · have hshort : ¬ 2 ≤ ([x].rdropWhile p).length := by
        have := (List.rdropWhile_prefix p [x]).length_le
        rw [List.length_singleton] at this
        omega
      rw [if_pos hu, if_pos hu, if_neg hshort]
      exact ⟨hnul, rest, rfl⟩
    · have hpos := List.length_pos_of_ne_nil hu
      rw [if_neg hu, if_neg hu, if_pos (by rw [List.length_cons]; omega)]
      refine ⟨fun hin => hnul ?_, rest', rfl⟩
      rw [List.mem_cons] at hin ⊢
      exact hin.imp_right fun hin => (List.rdropWhile_prefix p u).subset hin

/-- The string in front of a comment. -/
def beforeComment (s : StdString) : StdString := s.takeWhile (· != 35)

theorem stdRemoveComment_spec (h : HoldsString str s) :
    Delivers (stdRemoveCommentAndTrailingWhitespace str)
      (HoldsString · (keptByTrim isspace (beforeComment s))) := by
  have hlen := strlen_eq h
  obtain ⟨hnul, rest, rfl⟩ := h
  rw [stdRemoveCommentAndTrailingWhitespace, strchr, hlen, exec_bind_ok, List.take_left]
  by_cases hin : 35 ∈ s
  · obtain ⟨a, b, rfl, ha⟩ := List.eq_append_cons_of_mem hin
    have hbefore : beforeComment (a ++ 35 :: b) = a := by
      rw [beforeComment, List.takeWhile_append_of_pos]
      · simp
      · intro c hc
        have hne : c ≠ 35 := fun heq => ha (heq ▸ hc)
        simpa using hne
    have hstore : Mem.store (a ++ 35 :: b ++ 0 :: rest) a.length [0] =
        .ok (a ++ 0 :: (b ++ 0 :: rest)) := by
      have hmem : a ++ 35 :: b ++ 0 :: rest = a ++ (35 :: (b ++ 0 :: rest)) := by simp
      have hdrop : (a ++ 35 :: (b ++ 0 :: rest)).drop (a.length + [(0 : UInt8)].length) =
          b ++ 0 :: rest := by
        rw [← List.drop_drop, List.drop_left]
        rfl
      rw [hmem, Mem.store, if_pos (by simp), List.take_left, hdrop, List.append_assoc]
      rfl
    rw [hbefore, indexOf_append ha, exec_pure, exec_bind_ok]
    dsimp only
    rw [hstore, exec_bind_ok]
    exact rtrimBuf_spec (checkFor_eq (by simp))
      ⟨fun h0 => hnul (List.mem_append_left _ h0), b ++ 0 :: rest, rfl⟩
  · have hbefore : beforeComment s = s := by
      rw [beforeComment, List.takeWhile_eq_self_iff]
      intro c hc
      have hne : c ≠ 35 := fun heq => hin (heq ▸ hc)
      simpa using hne
    rw [hbefore, indexOf_not_mem hin, exec_pure, exec_bind_ok]
    exact rtrimBuf_spec (checkFor_eq (by simp)) ⟨hnul, rest, rfl⟩

/-! ## The laws -/

theorem HoldsString.unique {t : StdString} (h : HoldsString str s) (h' : HoldsString str t) :
    s = t := by
  have hlen : s.length = t.length :=
    Except.ok.inj ((strlen_eq h).symm.trans (strlen_eq h'))
  obtain ⟨-, rest, rfl⟩ := h
  obtain ⟨-, rest', heq⟩ := h'
  exact (List.append_inj heq hlen).1

theorem delivers_holds_unique {x : Exec Mem} {t : StdString} (h : Delivers x (HoldsString · s))
    (h' : Delivers x (HoldsString · t)) : s = t := by
  obtain ⟨a, rfl, ha⟩ := h
  obtain ⟨a', heq, ha'⟩ := h'
  exact ha.unique (Except.ok.inj heq ▸ ha')

theorem keptByTrim_eq_iff : keptByTrim p s = s.rdropWhile p ↔ TrimsRight p s := by
  rw [keptByTrim, TrimsRight]
  split
  · next hle => exact iff_of_true rfl (.inl hle)
  · next hle => rw [or_iff_right hle, eq_comm]

theorem keptByTrim_idem (p : UInt8 → Bool) (s : StdString) :
    keptByTrim p (keptByTrim p s) = keptByTrim p s := by
  by_cases hle : 2 ≤ (s.rdropWhile p).length
  · have heq : keptByTrim p s = s.rdropWhile p := if_pos hle
    rw [heq, keptByTrim, List.rdropWhile_idempotent, if_pos hle]
  · have heq : keptByTrim p s = s := if_neg hle
    rw [heq, heq]

end

/-- What is promised of the trims of a string. -/
structure TrimLaws (ws : Option StdString) (str : Mem) (s : StdString) : Prop where
  trailing : ∃ t, LongestPrefix (matched ws) s t ∧
    Delivers (stdRemoveTrailingWhitespace str ws) (HoldsString · t)
  leading : ∃ t, LongestSuffix (matched ws) s t ∧
    Delivers (stdRemoveLeadingWhitespace str ws) (HoldsString · t)
  trailing_twice : ∃ t, Delivers (stdRemoveTrailingWhitespace str ws) (HoldsString · t) ∧
    Delivers (stdRemoveTrailingWhitespace str ws >>= (stdRemoveTrailingWhitespace · ws))
      (HoldsString · t)
  leading_twice : ∃ t, Delivers (stdRemoveLeadingWhitespace str ws) (HoldsString · t) ∧
    Delivers (stdRemoveLeadingWhitespace str ws >>= (stdRemoveLeadingWhitespace · ws))
      (HoldsString · t)
  commute : ∃ t,
    Delivers (stdRemoveTrailingWhitespace str ws >>= (stdRemoveLeadingWhitespace · ws))
      (HoldsString · t) ∧
    Delivers (stdRemoveLeadingWhitespace str ws >>= (stdRemoveTrailingWhitespace · ws))
      (HoldsString · t)
  comment : ∃ t, LongestPrefix isspace (beforeComment s) t ∧
    Delivers (stdRemoveCommentAndTrailingWhitespace str) (HoldsString · t)

section
variable {ws : Option StdString} {str : Mem} {s : StdString}

theorem trailing_spec (hws : ws ≠ some []) (h : HoldsString str s) :
    Delivers (stdRemoveTrailingWhitespace str ws) (HoldsString · (keptByTrim (matched ws) s)) :=
  rtrimBuf_spec (checkFor_eq hws) h

theorem leading_spec (hws : ws ≠ some []) (h : HoldsString str s) :
    Delivers (stdRemoveLeadingWhitespace str ws) (HoldsString · (s.dropWhile (matched ws))) :=
  ltrimBuf_spec (checkFor_eq hws) h

/-- The trims of a string keep what is promised exactly if, for the string, for what the leading
trim leaves of it, and for white space in front of the comment, the trailing trim has two characters
to leave or nothing to remove. -/
theorem trim_laws_iff (hws : ws ≠ some []) (h : HoldsString str s) :
    TrimLaws ws str s ↔ TrimsRight (matched ws) s ∧
      TrimsRight (matched ws) (s.dropWhile (matched ws)) ∧
      TrimsRight isspace (beforeComment s) := by
  let p := matched ws
  have htrail := trailing_spec hws h
  have hlead := leading_spec hws h
  have hcomment := stdRemoveComment_spec h
  have htrailLead := htrail.bind fun str' h' => leading_spec hws h'
  have hleadTrail := hlead.bind fun str' h' => trailing_spec hws h'
  constructor
  · intro hlaws
    have hright : keptByTrim p s = s.rdropWhile p := by
      obtain ⟨t, hlongest, ht⟩ := hlaws.trailing
      rw [delivers_holds_unique htrail ht, hlongest.eq]
    refine ⟨keptByTrim_eq_iff.mp hright, keptByTrim_eq_iff.mp ?_, keptByTrim_eq_iff.mp ?_⟩
    · -- the two orders agree, and the other one trims both ends
      obtain ⟨t, ht, ht'⟩ := hlaws.commute
      rw [delivers_holds_unique hleadTrail ht', ← delivers_holds_unique htrailLead ht]
      change (keptByTrim p s).dropWhile p = _
      rw [hright]
      exact dropWhile_rdropWhile_comm p s
    · obtain ⟨t, hlongest, ht⟩ := hlaws.comment
      rw [delivers_holds_unique hcomment ht, hlongest.eq]
  · rintro ⟨hright, hleft, hbefore⟩
    have hs := keptByTrim_eq_iff.mpr hright
    have hrest := keptByTrim_eq_iff.mpr hleft
    have hcut := keptByTrim_eq_iff.mpr hbefore
    refine ⟨⟨_, hs ▸ longestPrefix_rdropWhile _ s, htrail⟩,
      ⟨_, longestSuffix_dropWhile _ s, hlead⟩, ⟨_, htrail, ?_⟩, ⟨_, hlead, ?_⟩,
      ⟨_, htrailLead, ?_⟩, ⟨_, hcut ▸ longestPrefix_rdropWhile _ _, hcomment⟩⟩
    · have htwice := htrail.bind fun str' h' => trailing_spec hws h'
      rwa [keptByTrim_idem] at htwice
    · have htwice := hlead.bind fun str' h' => leading_spec hws h'
      rwa [List.dropWhile_idempotent] at htwice
    · rwa [hrest, ← dropWhile_rdropWhile_comm, ← hs] at hleadTrail

/-- The string ` ab `, without a set. -/
theorem trim_laws_sample : TrimLaws none [32, 97, 98, 32, 0] [32, 97, 98, 32] := by
  have hws : (none : Option StdString) ≠ some [] := by simp
  have hstr : HoldsString [32, 97, 98, 32, 0] [32, 97, 98, 32] := ⟨by decide, [], rfl⟩
  exact (trim_laws_iff hws hstr).mpr ⟨.inl (by decide), .inl (by decide), .inl (by decide)⟩

/-- Of `a ` the trailing space stays. -/
theorem trim_leaves_space : ¬ ∀ (ws : Option StdString) (str : Mem) (s : StdString),
    ws ≠ some [] → HoldsString str s → TrimLaws ws str s := by
  intro hclaim
  have hstr : HoldsString [97, 32, 0] [97, 32] := ⟨by decide, [], rfl⟩
  obtain ⟨t, hlongest, ht⟩ := (hclaim none _ _ (by simp) hstr).trailing
  have heq := delivers_holds_unique (trailing_spec (by simp) hstr) ht
  rw [hlongest.eq] at heq
  exact absurd heq (by decide)

end

end OpxCommonUtils.Text
