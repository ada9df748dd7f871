import OpxCommonUtils.Text.Escape

/-!
# Splitting undoes joining

`joinEscaped` joins tokens with every delimiter inside a token escaped. A search for a delimiter
passes the escaped ones (`findLoop_spec`), the removal of escapes gives the token back
(`replaceLoop_spec`), and so the loop reads one token after the other (`parseLoop_spec`). The
delimiter at the front of the string, which ends an empty first token, has no character before it:
looking for the escape there throws, and the string is not split.
-/

namespace OpxCommonUtils.Text

open StdString

variable {d x : UInt8}

/-- A token with the escape character `x` in front of every delimiter `d`. -/
def escape (d x : UInt8) : StdString → StdString
  | [] => []
  | c :: t => if c = d then x :: d :: escape d x t else c :: escape d x t

/-- Tokens joined with the delimiter, after those inside a token were escaped. -/
def joinEscaped (d x : UInt8) (ts : List StdString) : StdString :=
  [d].intercalate (ts.map (escape d x))

theorem escape_append (a b : StdString) : escape d x (a ++ b) = escape d x a ++ escape d x b := by
  induction a with
  | nil => rfl
  | cons c a ih =>
    rw [List.cons_append, escape, escape, ih]
    split <;> rfl

theorem escape_of_not_mem {t : StdString} (h : d ∉ t) : escape d x t = t := by
  induction t with
  | nil => rfl
  | cons c t ih =>
    rw [List.mem_cons, not_or] at h
    rw [escape, if_neg (Ne.symm h.1), ih h.2]

theorem escape_delim (a b : StdString) (h : d ∉ a) :
    escape d x (a ++ d :: b) = a ++ x :: d :: escape d x b := by
  rw [escape_append, escape_of_not_mem h, escape, if_pos rfl]

theorem getLast?_escape (t : StdString) : (escape d x t).getLast? = t.getLast? := by
  rcases t.eq_nil_or_concat' with rfl | ⟨q, c, rfl⟩
  · rfl
  · by_cases h : c = d
    · simp [escape_append, escape, h]
    · simp [escape_append, escape, h]

theorem escape_eq_nil {t : StdString} : escape d x t = [] ↔ t = [] := by
  rw [← List.getLast?_eq_none_iff, getLast?_escape, List.getLast?_eq_none_iff]

theorem mem_escape {t : StdString} : x ∈ escape d x t ↔ d ∈ t ∨ x ∈ t := by
  induction t with
  | nil => simp [escape]
  | cons c t ih =>
    rw [escape]
    by_cases h : c = d
    · simp [h]
    · rw [if_neg h, List.mem_cons, List.mem_cons, List.mem_cons, ih]
      constructor
      · rintro (rfl | hd | hx)
        · exact .inr (.inl rfl)
        · exact .inl (.inr hd)
        · exact .inr (.inr hx)
      · rintro ((rfl | hd) | (rfl | hx))
        · exact absurd rfl h
        · exact .inr (.inl hd)
        · exact .inl rfl
        · exact .inr (.inr hx)

theorem head?_escape_ne {t : StdString} (h : d ≠ x) : (escape d x t).head? ≠ some d := by
  cases t with
  | nil => simp [escape]
  | cons c t =>
    rw [escape]
    by_cases hc : c = d
    · simp [hc, h.symm]
    · simp [hc]

/-! ## Finding the end of a token -/

/-- A search that begins behind `p`, in a token that another delimiter or nothing follows, passes
the escaped delimiters of the token. -/
theorem findLoop_spec (h : d ≠ x) {tail : StdString} (htail : tail.head? = some d ∨ tail = []) :
    ∀ (fuel : Nat) (p t : StdString), t.length < fuel → (p ++ t).getLast? ≠ some x →
      (p ++ t ≠ [] ∨ x ∉ tail) →
      stdFindStringWithEscLoop (p ++ (escape d x t ++ tail)) [d] [x] fuel p.length
        (find (p ++ (escape d x t ++ tail)) [d] p.length) =
      .ok (if tail = [] then none else some (p ++ escape d x t).length) := by
  intro fuel
  induction fuel with
  | zero => intro p t hfuel; omega
  | succ fuel ih =>
    intro p t hfuel hlast hfront
    by_cases hd : d ∈ t
    · -- the first delimiter of the token is escaped
      obtain ⟨a, b, rfl, ha⟩ := List.eq_append_cons_of_mem hd
      have hfind : find (p ++ (escape d x (a ++ d :: b) ++ tail)) [d] p.length =
          some (p ++ a ++ [x]).length := by
        have hax : d ∉ a ++ [x] := by simp [ha, h]
        have hsplit : escape d x (a ++ d :: b) ++ tail =
            (a ++ [x]) ++ d :: (escape d x b ++ tail) := by simp [escape_delim a b ha]
        rw [find_append, hsplit, indexOf_append hax]
        simp
      have hesc : (find (p ++ (escape d x (a ++ d :: b) ++ tail)) [x] p.length).isSome := by
        rw [find_append, Option.isSome_map, indexOf_isSome]
        exact List.mem_append_left _ (mem_escape.mpr (.inl hd))
      have hsplit : p ++ (escape d x (a ++ d :: b) ++ tail) =
          (p ++ a ++ [x]) ++ (d :: (escape d x b ++ tail)) := by simp [escape_delim a b ha]
      have hend : endsAt (p ++ (escape d x (a ++ d :: b) ++ tail)) [x] (p ++ a ++ [x]).length =
          some true := by
        rw [hsplit, endsAt_append (by simp)]
        simp
      rw [hfind, stdFindStringWithEscLoop, if_pos hesc, hend]
      dsimp only
      have hnext := ih (p ++ a ++ [x] ++ [d]) b (by simp at hfuel; omega)
        (by simpa using hlast) (.inl (by simp))
      have hshift : p ++ a ++ [x] ++ [d] ++ (escape d x b ++ tail) =
          p ++ (escape d x (a ++ d :: b) ++ tail) := by simp [escape_delim a b ha]
      have hlen : (p ++ a ++ [x] ++ [d]).length = (p ++ a ++ [x]).length + 1 :=
        List.length_append
      rw [hshift, hlen] at hnext
      rw [hnext, escape_delim a b ha]
      simp
    · rw [escape_of_not_mem hd]
      rcases htail with htail | rfl
      · obtain ⟨rest, rfl⟩ : ∃ rest, tail = d :: rest := by
          cases tail with
          | nil => simp at htail
          | cons c rest => exact ⟨rest, by simpa using htail⟩
        have hfind : find (p ++ (t ++ d :: rest)) [d] p.length = some (p ++ t).length := by
          rw [find_append, indexOf_append hd]
          simp
        rw [hfind, stdFindStringWithEscLoop, if_neg (List.cons_ne_nil _ _)]
        by_cases hnil : p ++ t = []
        · -- the delimiter is in front, and no escape follows
          obtain ⟨rfl, rfl⟩ := List.append_eq_nil_iff.mp hnil
          have hout := hfront.resolve_left fun hne => hne rfl
          have hnone : find ([] ++ ([] ++ d :: rest)) [x] ([] : StdString).length = none := by
            rw [find_append, List.nil_append, indexOf_not_mem hout]
            rfl
          rw [hnone]
          rfl
        · have hend : endsAt (p ++ (t ++ d :: rest)) [x] (p ++ t).length = some false := by
            rw [← List.append_assoc, endsAt_append hnil]
            simpa using hlast
          rw [hend]
          split <;> rfl
      · have hfind : find (p ++ (t ++ [])) [d] p.length = none := by
          rw [List.append_nil, find_append, indexOf_not_mem hd]
          rfl
        rw [hfind, if_pos rfl, stdFindStringWithEscLoop]

/-! ## Removing the escapes -/

/-- The removal of escapes that has come to the end of `p`: no escape is in `w`, and `t` is still
to be read. -/
theorem replaceLoop_spec (h : d ≠ x) : ∀ (fuel : Nat) (p w t : StdString), t.length < fuel →
    x ∉ w → stdStringReplaceWithEscLoop [x] [] [d] fuel (p ++ (w ++ escape d x t)) p.length =
      .ok (p ++ (w ++ t)) := by
  intro fuel
  induction fuel with
  | zero => intro p w t hfuel; omega
  | succ fuel ih =>
    intro p w t hfuel hw
    rw [stdStringReplaceWithEscLoop]
    by_cases hmem : d ∈ t ∨ x ∈ t
    · -- the first character of the token that is a delimiter or an escape
      obtain ⟨a, c, b, rfl, had, hax, hc⟩ : ∃ a c b, t = a ++ c :: b ∧ d ∉ a ∧ x ∉ a ∧
          (c = d ∨ c = x) := by
        clear ih hfuel
        induction t with
        | nil => simp at hmem
        | cons c t iht =>
          by_cases hc : c = d ∨ c = x
          · exact ⟨[], c, t, rfl, by simp, by simp, hc⟩
          · rw [not_or] at hc
            have hmem' : d ∈ t ∨ x ∈ t := by
              simpa [Ne.symm hc.1, Ne.symm hc.2] using hmem
            obtain ⟨a, e, b, rfl, had, hax, he⟩ := iht hmem'
            exact ⟨c :: a, e, b, rfl, by simp [had, Ne.symm hc.1], by simp [hax, Ne.symm hc.2], he⟩
      have hwa : x ∉ w ++ a := by simp [hw, hax]
      have hshift (r : StdString) : p ++ (w ++ (a ++ r)) = (p ++ w ++ a) ++ r := by simp
      have hlen : (p ++ w ++ a).length = p.length + (w ++ a).length := by simp
      rcases hc with rfl | rfl
      · have hfind : find (p ++ (w ++ escape c x (a ++ c :: b))) [x] p.length =
            some (p ++ w ++ a).length := by
          rw [escape_delim a b had, find_append, ← List.append_assoc w a, indexOf_append hwa, hlen]
          rfl
        have hdelim : find (p ++ (w ++ escape c x (a ++ c :: b))) [c] (p ++ w ++ a).length =
            some ((p ++ w ++ a).length + [x].length) := by
          have hx : c ∉ [x] := by simpa using h
          have hpair : indexOf [c] (x :: c :: escape c x b) = some 1 :=
            indexOf_append hx (escape c x b)
          rw [escape_delim a b had, hshift, find_append, hpair]
          rfl
        have hreplace : (p ++ (w ++ escape c x (a ++ c :: b))).replace (p ++ w ++ a).length
            [x].length [] = (p ++ w ++ a) ++ ([c] ++ escape c x b) := by
          rw [escape_delim a b had, hshift]
          exact replace_append (p ++ w ++ a) [x] (c :: escape c x b) []
        rw [hfind]
        dsimp only
        rw [if_pos hdelim, hreplace, ih (p ++ w ++ a) [c] b (by simp at hfuel; omega)
          (by simpa using h.symm)]
        simp
      · have hesc : escape d c (a ++ c :: b) = a ++ c :: escape d c b := by
          rw [escape_append, escape_of_not_mem had, escape, if_neg h.symm]
        have hfind : find (p ++ (w ++ escape d c (a ++ c :: b))) [c] p.length =
            some (p ++ w ++ a).length := by
          rw [hesc, find_append, ← List.append_assoc w a, indexOf_append hwa, hlen]
          rfl
        have hdelim : find (p ++ (w ++ escape d c (a ++ c :: b))) [d] (p ++ w ++ a).length ≠
            some ((p ++ w ++ a).length + [c].length) := by
          rw [hesc, hshift, find_append, indexOf, if_neg (by simpa using h)]
          intro heq
          have hzero : indexOf [d] (escape d c b) = some 0 := by
            cases hi : indexOf [d] (escape d c b) with
            | none => simp [hi] at heq
            | some i =>
              simp [hi] at heq
              rw [heq]
          exact head?_escape_ne h (indexOf_eq_zero.mp hzero)
        rw [hfind]
        dsimp only
        rw [if_neg hdelim]
        have hnext := ih (p ++ w ++ a ++ [c]) [] b (by simp at hfuel; omega) (by simp)
        have hstr : p ++ (w ++ escape d c (a ++ c :: b)) =
            p ++ w ++ a ++ [c] ++ ([] ++ escape d c b) := by simp [hesc]
        have hpos : (p ++ w ++ a).length + [c].length = (p ++ w ++ a ++ [c]).length :=
          List.length_append.symm
        rw [hstr, hpos, hnext]
        simp
    · rw [not_or] at hmem
      have hnone : find (p ++ (w ++ escape d x t)) [x] p.length = none := by
        rw [escape_of_not_mem hmem.1, find_append, indexOf_not_mem (by simp [hw, hmem.2])]
        rfl
      rw [hnone, escape_of_not_mem hmem.1]

theorem length_le_escape (t : StdString) : t.length ≤ (escape d x t).length := by
  induction t with
  | nil => simp
  | cons c t ih =>
    rw [escape]
    split
    · simp only [List.length_cons]
      omega
    · simpa using ih

theorem stdStringReplaceWithEsc_escape (h : d ≠ x) (t : StdString) :
    stdStringReplaceWithEsc (escape d x t) [x] [] [d] = .ok t :=
  replaceLoop_spec h _ [] [] t (Nat.lt_succ_of_le (length_le_escape t)) (by simp)

/-! ## Reading the tokens -/

theorem joinEscaped_cons (t u : StdString) (ts : List StdString) :
    joinEscaped d x (t :: u :: ts) = escape d x t ++ d :: joinEscaped d x (u :: ts) := by
  rw [joinEscaped, List.map_cons, List.map_cons, List.intercalate_cons_cons, List.append_assoc]
  rfl

theorem joinEscaped_singleton (t : StdString) : joinEscaped d x [t] = escape d x t :=
  List.intercalate_singleton

theorem mem_joinEscaped (h : d ≠ x) {ts : List StdString} :
    x ∈ joinEscaped d x ts ↔ ∃ t ∈ ts, d ∈ t ∨ x ∈ t := by
  induction ts with
  | nil => simp [joinEscaped]
  | cons t ts ih =>
    cases ts with
    | nil => simp [joinEscaped_singleton, mem_escape]
    | cons u ts =>
      rw [joinEscaped_cons, List.mem_append, List.mem_cons, ih, mem_escape, or_iff_right h.symm]
      simp

/-- One round of the loop: the token `t` behind `p`, up to the next delimiter or to the end. -/
theorem parseStep_spec (h : d ≠ x) {tail : StdString} (htail : tail.head? = some d ∨ tail = [])
    {p t : StdString} (hix : escape d x t ++ tail ≠ []) (hnul : 0 ∉ t)
    (hlast : (p ++ t).getLast? ≠ some x) (hfront : p ++ t ≠ [] ∨ x ∉ tail) (fuel : Nat)
    (vect : List StdString) :
    stdParseStringWithEscLoop (p ++ (escape d x t ++ tail)) [d] [x] (fuel + 1) p.length vect =
      stdParseStringWithEscLoop (p ++ (escape d x t ++ tail)) [d] [x] fuel
        ((p ++ escape d x t).length + 1) (vect ++ [t]) := by
  have hlen := length_le_escape (d := d) (x := x) t
  have hpos : p.length < (p ++ (escape d x t ++ tail)).length := by
    have := List.length_pos_of_ne_nil hix
    rw [List.length_append]
    omega
  have hfuel : t.length < (p ++ (escape d x t ++ tail)).length + 1 := by
    simp only [List.length_append]
    omega
  have hfind := findLoop_spec h htail _ p t hfuel hlast hfront
  rw [stdParseStringWithEscLoop, if_pos hpos, stdFindStringWithEsc, if_neg (not_le.mpr hpos), hfind,
    exec_bind_ok]
  have he : (if tail = [] then none else some (p ++ escape d x t).length).getD
      (p ++ (escape d x t ++ tail)).length = (p ++ escape d x t).length := by
    split
    · next hnil => simp [hnil]
    · rfl
  have hsub : (p ++ escape d x t).length - p.length = (escape d x t).length := by simp
  rw [he]
  dsimp only
  rw [hsub, substr_append]
  dsimp only
  rw [stdStringReplaceWithEsc_escape h, exec_bind_ok, cStr_of_not_mem hnul]
  rfl

theorem parseLoop_end {data delim esc : StdString} {fuel ix : Nat} {vect : List StdString}
    (h : data.length ≤ ix) :
    stdParseStringWithEscLoop data delim esc (fuel + 1) ix vect = .ok (some vect) := by
  rw [stdParseStringWithEscLoop, if_neg (not_lt.mpr h)]
  rfl

/-- The loop that has come to the end of `p` reads the tokens joined behind it. -/
theorem parseLoop_spec (h : d ≠ x) : ∀ (ts : List StdString) (p : StdString) (fuel : Nat)
    (vect : List StdString), ts.length < fuel → (∀ t ∈ ts, 0 ∉ t) →
    (∀ t ∈ ts, t.getLast? ≠ some x) → (∃ t, ts.getLast? = some t ∧ t ≠ []) →
    p.getLast? ≠ some x → (p ≠ [] ∨ ts.head? ≠ some [] ∨ x ∉ joinEscaped d x ts) →
    stdParseStringWithEscLoop (p ++ joinEscaped d x ts) [d] [x] fuel p.length vect =
      .ok (some (vect ++ ts)) := by
  intro ts
  induction ts with
  | nil => intro p fuel vect _ _ _ hlast; simp at hlast
  | cons t ts ih =>
    intro p fuel vect hfuel hnul hend hlast hp hfront
    obtain ⟨fuel, rfl⟩ : ∃ n, fuel = n + 1 := ⟨fuel - 1, by omega⟩
    have hpt : (p ++ t).getLast? ≠ some x := by
      rw [List.getLast?_append]
      cases hl : t.getLast? with
      | none => exact hp
      | some c => exact fun heq => hend t (by simp) (hl.trans heq)
    cases ts with
    | nil =>
      have ht : t ≠ [] := by simpa using hlast
      have hesc : escape d x t ++ [] ≠ [] := by simpa [escape_eq_nil] using ht
      have hstep := parseStep_spec h (.inr rfl) (p := p) hesc (hnul t (by simp)) hpt
        (.inr (by simp)) fuel vect
      obtain ⟨fuel, rfl⟩ : ∃ n, fuel = n + 1 := ⟨fuel - 1, by simp at hfuel; omega⟩
      rw [List.append_nil] at hstep
      rw [joinEscaped_singleton, hstep, parseLoop_end (Nat.le_succ _)]
    | cons u ts =>
      rw [joinEscaped_cons] at hfront ⊢
      have hfront' : p ++ t ≠ [] ∨ x ∉ d :: joinEscaped d x (u :: ts) := by
        rcases hfront with hne | hne | hout
        · exact .inl (by simp [hne])
        · exact .inl (by simpa using fun _ => hne)
        · exact .inr fun hmem => hout (List.mem_append_right _ hmem)
      have hstep := parseStep_spec h (.inl rfl) (p := p) (t := t)
        (List.append_ne_nil_of_right_ne_nil _ (List.cons_ne_nil _ _)) (hnul t (by simp)) hpt hfront'
        fuel vect
      have hlast' : ∃ w, (u :: ts).getLast? = some w ∧ w ≠ [] := by simpa using hlast
      have hrest := ih (p ++ escape d x t ++ [d]) fuel (vect ++ [t]) (by simpa using hfuel)
        (fun w hw => hnul w (List.mem_cons_of_mem _ hw))
        (fun w hw => hend w (List.mem_cons_of_mem _ hw)) hlast' (by simpa using h) (.inl (by simp))
      have hstr : p ++ (escape d x t ++ d :: joinEscaped d x (u :: ts)) =
          p ++ escape d x t ++ [d] ++ joinEscaped d x (u :: ts) := by simp
      have hpos : (p ++ escape d x t).length + 1 = (p ++ escape d x t ++ [d]).length := by
        simp only [List.length_append, List.length_singleton]
      rw [hstep, hstr, hpos, hrest, List.append_assoc, List.singleton_append]

/-- A string that begins with the delimiter and holds an escape character is not split. -/
theorem parse_front {rest : StdString} (h : x ∈ rest) :
    Ensures (stdParseStringWithEsc (d :: rest) [d] [x]) fun r => ∃ w, r = some [w] := by
  have hfind : stdFindStringWithEsc (d :: rest) 0 [d] [x] = .ok none := by
    have hdelim : find (d :: rest) [d] 0 = some 0 := by simp [find, indexOf]
    have hesc : (find (d :: rest) [x] 0).isSome := by
      have hmem := indexOf_isSome.mpr (List.mem_cons_of_mem d h)
      simpa [find] using hmem
    rw [stdFindStringWithEsc, if_neg (by simp), hdelim, List.length_cons,
      stdFindStringWithEscLoop, if_pos hesc, endsAt_zero]
  have hsub : substr (d :: rest) 0 ((d :: rest).length - 0) = some (d :: rest) := by
    simp [substr]
  rw [stdParseStringWithEsc, stdParseStringWithEscLoop, if_pos (by simp), hfind, exec_bind_ok,
    Option.getD_none]
  dsimp only
  rw [hsub]
  refine Ensures.bindAny fun w => ?_
  rw [List.length_cons, parseLoop_end (by simp)]
  exact ensures_ok.mpr ⟨w.cStr, rfl⟩

/-- Splitting gives the joined tokens back if and only if the first token is not empty or nothing
was escaped and no token holds the escape character. -/
theorem parse_escaped_iff (d x : UInt8) (hne : d ≠ x) (ts : List StdString)
    (hnul : ∀ t ∈ ts, 0 ∉ t) (hlast : ∃ t, ts.getLast? = some t ∧ t ≠ [])
    (hend : ∀ t ∈ ts, t.getLast? ≠ some x) :
    stdParseStringWithEsc (joinEscaped d x ts) [d] [x] = .ok (some ts) ↔
      ts.head? ≠ some [] ∨ ∀ t ∈ ts, d ∉ t ∧ x ∉ t := by
  have hmem : x ∈ joinEscaped d x ts ↔ ∃ t ∈ ts, d ∈ t ∨ x ∈ t := mem_joinEscaped hne
  constructor
  · intro hparse
    by_contra hcond
    rw [not_or, not_not] at hcond
    obtain ⟨hhead, hhas⟩ := hcond
    have hx : x ∈ joinEscaped d x ts := by
      rw [hmem]
      by_contra hnone
      refine hhas fun t ht => ?_
      constructor
      · exact fun hd => hnone ⟨t, ht, .inl hd⟩
      · exact fun hx => hnone ⟨t, ht, .inr hx⟩
    cases ts with
    | nil => simp at hhead
    | cons t ts =>
      obtain rfl : t = [] := by simpa using hhead
      cases ts with
      | nil => simp at hlast
      | cons u ts =>
        rw [joinEscaped_cons, escape, List.nil_append] at hparse hx
        have hx' := (List.mem_cons.mp hx).resolve_left hne.symm
        obtain ⟨w, hw⟩ := parse_front hx' _ hparse
        simp at hw
  · intro hcond
    have hlen : ts.length ≤ (joinEscaped d x ts).length := by
      clear hmem hcond hnul hend
      induction ts with
      | nil => simp
      | cons t ts ih =>
        cases ts with
        | nil =>
          have ht : t ≠ [] := by simpa using hlast
          have hpos := List.length_pos_of_ne_nil ht
          have hle := length_le_escape (d := d) (x := x) t
          rw [joinEscaped_singleton, List.length_singleton]
          omega
        | cons u ts =>
          have hrest := ih (by simpa using hlast)
          simp only [joinEscaped_cons, List.length_append, List.length_cons] at hrest ⊢
          omega
    refine parseLoop_spec hne ts [] _ [] (Nat.lt_succ_of_le hlen) hnul hend hlast (by simp)
      (.inr ?_)
    rcases hcond with hhead | hnone
    · exact .inl hhead
    · refine .inr fun hx => ?_
      obtain ⟨t, ht, hd | hxt⟩ := hmem.mp hx
      · exact (hnone t ht).1 hd
      · exact (hnone t ht).2 hxt

/-- The tokens `a`, `b,c`, the empty one and `d`, with the delimiter `,`. -/
theorem parse_escaped_iff_sample :
    stdParseStringWithEsc (joinEscaped 44 92 [[97], [98, 44, 99], [], [100]]) [44] [92] =
      .ok (some [[97], [98, 44, 99], [], [100]]) :=
  (parse_escaped_iff 44 92 (by decide) [[97], [98, 44, 99], [], [100]] (by decide)
    ⟨[100], by decide, by decide⟩ (by decide)).mpr (.inl (by decide))

/-- The empty token and `a,b`, joined as `,a\,b`, come back as the one token `,a,b`. -/
theorem empty_first_token_lost :
    joinEscaped 44 92 [[], [97, 44, 98]] = [44, 97, 92, 44, 98] ∧
      stdParseStringWithEsc [44, 97, 92, 44, 98] [44] [92] = .ok (some [[44, 97, 44, 98]]) ∧
      stdParseStringWithEsc (joinEscaped 44 92 [[], [97, 44, 98]]) [44] [92] ≠
        .ok (some [[], [97, 44, 98]]) := by
  decide +kernel

end OpxCommonUtils.Text
