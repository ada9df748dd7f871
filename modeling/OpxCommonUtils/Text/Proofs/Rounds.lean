import OpxCommonUtils.Text.Escape
import OpxCommonUtils.Text.Split

/-!
# Whether the token loops end

With a delimiter and an escape that are not empty each of the four loops gets on in every round, so
that one round more than the string has characters is enough. An empty escape is found at every
place and replaced by nothing, and an empty delimiter does not take the scan on.
-/

namespace OpxCommonUtils.Text

open StdString

/-- The token loop of `std_parse_string_with_esc` where each loop below it may make `rounds`
rounds. -/
def parseWithEscRounds (rounds : Nat) (data delim esc : StdString) : Nat → Nat → List StdString →
    Exec (Option (List StdString))
  | 0, _, _ => .error .diverges
  | fuel + 1, ix, vect =>
    if ix < data.length then do
      let e := (← stdFindStringWithEscLoop data delim esc rounds ix (find data delim ix)).getD
        data.length
      match data.substr ix (e - ix) with
      | none => return none
      | some found =>
        let found ← stdStringReplaceWithEscLoop esc [] delim rounds found 0
        parseWithEscRounds rounds data delim esc fuel (e + delim.length) (vect ++ [found.cStr])
    else return some vect

/-! ## Enough rounds -/

section
variable {s d e : StdString}

theorem length_le_of_indexOf {pat : StdString} :
    ∀ {s : StdString} {n : Nat}, indexOf pat s = some n → n + pat.length ≤ s.length := by
  intro s
  induction s with
  | nil =>
    intro n h
    rw [indexOf] at h
    split at h
    · next hnil =>
      obtain rfl := Option.some.inj h
      simp [hnil]
    · cases h
  | cons c s ih =>
    intro n h
    rw [indexOf] at h
    split at h
    · next hpre =>
      obtain rfl := Option.some.inj h
      simpa using hpre.length_le
    · obtain ⟨m, hm, rfl⟩ := Option.map_eq_some_iff.mp h
      have := ih hm
      rw [List.length_cons]
      omega

/-- What is found is behind the place where the search began, and in the string. -/
theorem find_bounds {pat : StdString} {pos n : Nat} (h : find s pat pos = some n) :
    pos ≤ n ∧ n + pat.length ≤ s.length := by
  rw [find] at h
  split at h
  · obtain ⟨m, hm, rfl⟩ := Option.map_eq_some_iff.mp h
    have hle := length_le_of_indexOf hm
    rw [List.length_drop] at hle
    omega
  · cases h

theorem find_nil {pos : Nat} (h : pos ≤ s.length) : find s [] pos = some pos := by
  have hzero : indexOf [] (s.drop pos) = some 0 := by
    cases s.drop pos <;> simp [indexOf]
  rw [find, if_pos h, hzero]
  rfl

theorem find_eq_none_of_not_infix (h : ¬ e <:+: s) : find s e 0 = none := by
  cases hix : indexOf e s with
  | none => simp [find, hix]
  | some n =>
    have he : e ≠ [] := fun heq => h (heq ▸ List.nil_infix)
    obtain ⟨a, b, rfl, -⟩ := indexOf_eq_some he hix
    exact absurd ⟨a, b, List.append_assoc a e b⟩ h

/-- The scan of `std_parse_string` goes on by a delimiter in each round. -/
theorem parseStringLoop_delivers (hd : d ≠ []) : ∀ (fuel ix : Nat) (vect : List StdString),
    s.length ≤ ix + fuel →
    Delivers (stdParseStringLoop s d (fuel + 1) ix vect) fun _ => True := by
  have hpos : 0 < d.length := List.length_pos_of_ne_nil hd
  intro fuel
  induction fuel with
  | zero =>
    intro ix vect h
    rw [stdParseStringLoop, if_neg (by omega)]
    exact delivers_ok.mpr trivial
  | succ fuel ih =>
    intro ix vect h
    rw [stdParseStringLoop]
    split
    · have hget : ix ≤ (find s d ix).getD s.length := by
        cases hfind : find s d ix with
        | none => rw [Option.getD_none]; omega
        | some n => exact (find_bounds hfind).1
      dsimp only
      split
      · exact delivers_ok.mpr trivial
      · exact ih _ _ (by omega)
    · exact delivers_ok.mpr trivial

/-- Each round looks behind the delimiter that was found in the one before. -/
theorem findLoop_delivers (d e : StdString) : ∀ (fuel ix : Nat) (found : Option Nat),
    (∀ n, found = some n → ix ≤ n ∧ n ≤ s.length ∧ s.length < n + fuel) →
    Delivers (stdFindStringWithEscLoop s d e fuel ix found) fun r => ∀ n, r = some n → ix ≤ n := by
  intro fuel
  induction fuel with
  | zero =>
    intro ix found h
    cases found with
    | none => exact delivers_ok.mpr (by simp)
    | some n => obtain ⟨-, hle, hlt⟩ := h n rfl; omega
  | succ fuel ih =>
    intro ix found h
    cases found with
    | none => exact delivers_ok.mpr (by simp)
    | some n =>
      obtain ⟨hix, hle, hlt⟩ := h n rfl
      have hsome : Delivers (.ok (some n)) fun r : Option Nat => ∀ m, r = some m → ix ≤ m :=
        delivers_ok.mpr fun m hm => (Option.some.inj hm) ▸ hix
      rw [stdFindStringWithEscLoop]
      split
      · cases endsAt s e n with
        | none => exact delivers_ok.mpr (by simp)
        | some b =>
          cases b with
          | false => exact hsome
          | true =>
            refine (ih (n + 1) (find s d (n + 1)) fun m hm => ?_).mono fun r hr m hm => ?_
            · obtain ⟨hnm, hm⟩ := find_bounds hm
              omega
            · exact hix.trans ((Nat.le_succ n).trans (hr m hm))
      · exact hsome

theorem stdFindStringWithEsc_delivers (d e : StdString) {ix : Nat} (hix : ix < s.length) :
    Delivers (stdFindStringWithEsc s ix d e) fun r => ∀ n, r = some n → ix ≤ n := by
  rw [stdFindStringWithEsc, if_neg (Nat.not_le.mpr hix)]
  refine findLoop_delivers d e _ _ _ fun n hn => ?_
  obtain ⟨hle, hlen⟩ := find_bounds hn
  omega

/-- Each round takes an escape out of the string or passes it. -/
theorem replaceLoop_delivers (he : e ≠ []) (d : StdString) : ∀ (fuel : Nat) (s : StdString)
    (start : Nat), start ≤ s.length → s.length < start + fuel →
    Delivers (stdStringReplaceWithEscLoop e [] d fuel s start) fun _ => True := by
  have hpos : 0 < e.length := List.length_pos_of_ne_nil he
  intro fuel
  induction fuel with
  | zero =>
    intro s start hstart h
    omega
  | succ fuel ih =>
    intro s start hstart h
    rw [stdStringReplaceWithEscLoop]
    cases hfind : find s e start with
    | none => exact delivers_ok.mpr trivial
    | some n =>
      obtain ⟨hle, hlen⟩ := find_bounds hfind
      dsimp only
      split
      · have hreplace : (s.replace n e.length []).length = s.length - e.length := by
          simp only [StdString.replace, List.append_nil, List.length_append, List.length_take,
            List.length_drop]
          omega
        exact ih _ _ (by omega) (by omega)
      · exact ih _ _ (by omega) (by omega)

theorem stdStringReplaceWithEsc_delivers (he : e ≠ []) (d s : StdString) :
    Delivers (stdStringReplaceWithEsc s e [] d) fun _ => True :=
  replaceLoop_delivers he d _ s 0 (Nat.zero_le _) (by omega)

/-- A round that comes to a place from which the loop ends. -/
theorem parseWithEscLoop_round (he : e ≠ []) {fuel ix : Nat} (hix : ix < s.length)
    {r : Option Nat} (hfind : stdFindStringWithEsc s ix d e = .ok r)
    (hrest : ∀ vect, Delivers (stdParseStringWithEscLoop s d e fuel (r.getD s.length + d.length)
      vect) fun _ => True) (vect : List StdString) :
    Delivers (stdParseStringWithEscLoop s d e (fuel + 1) ix vect) fun _ => True := by
  rw [stdParseStringWithEscLoop, if_pos hix, hfind, exec_bind_ok]
  dsimp only
  split
  · exact delivers_ok.mpr trivial
  · exact (stdStringReplaceWithEsc_delivers he d _).bind fun found _ => hrest _

/-- The scan goes on by a delimiter in each round. -/
theorem parseWithEscLoop_delivers (he : e ≠ []) (hd : d ≠ []) : ∀ (fuel ix : Nat)
    (vect : List StdString), s.length ≤ ix + fuel →
    Delivers (stdParseStringWithEscLoop s d e (fuel + 1) ix vect) fun _ => True := by
  have hpos : 0 < d.length := List.length_pos_of_ne_nil hd
  intro fuel
  induction fuel with
  | zero =>
    intro ix vect h
    rw [stdParseStringWithEscLoop, if_neg (by omega)]
    exact delivers_ok.mpr trivial
  | succ fuel ih =>
    intro ix vect h
    by_cases hix : ix < s.length
    · obtain ⟨r, hfind, hr⟩ := stdFindStringWithEsc_delivers d e hix
      refine parseWithEscLoop_round he hix hfind (fun vect => ih _ vect ?_) vect
      cases r with
      | none => rw [Option.getD_none]; omega
      | some n =>
        have := hr n rfl
        rw [Option.getD_some]
        omega
    · rw [stdParseStringWithEscLoop, if_neg hix]
      exact delivers_ok.mpr trivial

/-- In front of the string there is no room for the escape: looking for it there throws, and the
string is one token. -/
theorem findWithEsc_front (he : e ≠ []) (hin : e <:+: s) (hs : s ≠ []) :
    stdFindStringWithEsc s 0 [] e = .ok none := by
  have hpos := List.length_pos_of_ne_nil hs
  have hesc : (find s e 0).isSome := by
    cases hix : indexOf e s with
    | none => exact absurd hin (indexOf_eq_none hix)
    | some n => simp [find, hix]
  have hends : endsAt s e 0 = none := by
    have := List.length_pos_of_ne_nil he
    rw [endsAt, if_neg (by omega)]
  rw [stdFindStringWithEsc, if_neg (by omega), find_nil (Nat.zero_le _),
    stdFindStringWithEscLoop, if_pos hesc, hends]

theorem stdParseStringWithEsc_delivers (he : e ≠ []) (h : d ≠ [] ∨ e <:+: s) :
    Delivers (stdParseStringWithEsc s d e) fun _ => True := by
  by_cases hs : s = []
  · subst hs
    exact delivers_ok.mpr trivial
  by_cases hd : d = []
  · subst hd
    obtain ⟨n, hn⟩ : ∃ n, s.length = n + 1 :=
      ⟨s.length - 1, by have := List.length_pos_of_ne_nil hs; omega⟩
    refine parseWithEscLoop_round he (List.length_pos_of_ne_nil hs)
      (findWithEsc_front he (h.resolve_left (not_not.mpr rfl)) hs) (fun vect => ?_) []
    rw [hn, Option.getD_none, stdParseStringWithEscLoop, if_neg (by omega)]
    exact delivers_ok.mpr trivial
  · exact parseWithEscLoop_delivers he hd _ 0 [] (by omega)

/-! ## More rounds change nothing -/

theorem findLoop_mono {fuel fuel' : Nat} (hle : fuel ≤ fuel') {ix : Nat} {found r : Option Nat}
    (h : stdFindStringWithEscLoop s d e fuel ix found = .ok r) :
    stdFindStringWithEscLoop s d e fuel' ix found = .ok r := by
  induction fuel generalizing fuel' ix found with
  | zero =>
    cases found with
    | none => cases fuel' <;> exact h
    | some n => cases h
  | succ fuel ih =>
    obtain ⟨fuel', rfl⟩ : ∃ n, fuel' = n + 1 := ⟨fuel' - 1, by omega⟩
    cases found with
    | none => exact h
    | some n =>
      rw [stdFindStringWithEscLoop] at h ⊢
      split at h
      · next hesc =>
        rw [if_pos hesc]
        cases hends : endsAt s e n with
        | none => rwa [hends] at h
        | some b =>
          rw [hends] at h
          cases b with
          | false => exact h
          | true => exact ih (by omega) h
      · next hesc => rwa [if_neg hesc]

theorem replaceLoop_mono {fuel fuel' : Nat} (hle : fuel ≤ fuel') {s t r : StdString} {start : Nat}
    (h : stdStringReplaceWithEscLoop e t d fuel s start = .ok r) :
    stdStringReplaceWithEscLoop e t d fuel' s start = .ok r := by
  induction fuel generalizing fuel' s start with
  | zero => cases h
  | succ fuel ih =>
    obtain ⟨fuel', rfl⟩ : ∃ n, fuel' = n + 1 := ⟨fuel' - 1, by omega⟩
    rw [stdStringReplaceWithEscLoop] at h ⊢
    cases hfind : find s e start with
    | none => rwa [hfind] at h
    | some n =>
      rw [hfind] at h
      dsimp only at h ⊢
      split at h
      · next heq =>
        rw [if_pos heq]
        exact ih (by omega) h
      · next heq =>
        rw [if_neg heq]
        exact ih (by omega) h

/-- With more rounds for each loop the tokens are the same. -/
theorem parseWithEscRounds_of_loop {rounds fuel fuel' : Nat} (hrounds : s.length < rounds)
    (hle : fuel ≤ fuel') {ix : Nat} {vect : List StdString} {r : Option (List StdString)}
    (h : stdParseStringWithEscLoop s d e fuel ix vect = .ok r) :
    parseWithEscRounds rounds s d e fuel' ix vect = .ok r := by
  induction fuel generalizing fuel' ix vect with
  | zero => cases h
  | succ fuel ih =>
    obtain ⟨fuel', rfl⟩ : ∃ n, fuel' = n + 1 := ⟨fuel' - 1, by omega⟩
    rw [stdParseStringWithEscLoop] at h
    rw [parseWithEscRounds]
    split at h
    · next hix =>
      obtain ⟨found, hfind, h⟩ := exec_bind_eq_ok.mp h
      rw [stdFindStringWithEsc, if_neg (Nat.not_le.mpr hix)] at hfind
      rw [if_pos hix, findLoop_mono (by omega) hfind, exec_bind_ok]
      dsimp only at h ⊢
      cases hsub : s.substr ix (found.getD s.length - ix) with
      | none =>
        rw [hsub] at h
        exact h
      | some token =>
        rw [hsub] at h
        obtain ⟨token', hreplace, h⟩ := exec_bind_eq_ok.mp h
        have hlen : token.length ≤ s.length := by
          rw [substr, if_pos hix.le] at hsub
          rw [← Option.some.inj hsub, List.length_take, List.length_drop]
          omega
        dsimp only
        rw [replaceLoop_mono (by omega) hreplace, exec_bind_ok]
        exact ih (by omega) h
    · next hix => rwa [if_neg hix]

/-! ## Loops without end -/

/-- An empty delimiter does not take the scan of `std_parse_string` on. -/
theorem parseStringLoop_diverges (hs : s ≠ []) (fuel : Nat) (vect : List StdString) :
    stdParseStringLoop s [] fuel 0 vect = .error .diverges := by
  induction fuel generalizing vect with
  | zero => rfl
  | succ fuel ih =>
    have hsub : s.substr 0 0 = some [] := by simp [substr]
    rw [stdParseStringLoop, if_pos (List.length_pos_of_ne_nil hs), find_nil (Nat.zero_le _),
      Option.getD_some]
    dsimp only
    rw [Nat.sub_self, hsub]
    exact ih _

/-- An empty escape is replaced by nothing at the same place again. -/
theorem replaceLoop_diverges (d : StdString) (fuel : Nat) {start : Nat} (h : start ≤ s.length) :
    stdStringReplaceWithEscLoop [] [] d fuel s start = .error .diverges := by
  induction fuel with
  | zero => rfl
  | succ fuel ih =>
    have hreplace : s.replace start ([] : StdString).length [] = s := by
      simp [StdString.replace]
    rw [stdStringReplaceWithEscLoop, find_nil h]
    dsimp only
    rw [hreplace]
    split <;> exact ih

theorem parseWithEscRounds_diverges_of_esc (hs : s ≠ []) {rounds : Nat}
    (hrounds : s.length < rounds) (d : StdString) (fuel : Nat) (vect : List StdString) :
    parseWithEscRounds rounds s d [] fuel 0 vect = .error .diverges := by
  cases fuel with
  | zero => rfl
  | succ fuel =>
    obtain ⟨r, hfind, -⟩ := findLoop_delivers (s := s) d [] rounds 0 (find s d 0) fun n hn => by
      obtain ⟨hle, hlen⟩ := find_bounds hn
      omega
    rw [parseWithEscRounds, if_pos (List.length_pos_of_ne_nil hs), hfind, exec_bind_ok]
    dsimp only
    rw [substr, if_pos (Nat.zero_le _)]
    dsimp only
    rw [replaceLoop_diverges d rounds (Nat.zero_le _)]
    rfl

theorem parseWithEscRounds_diverges_of_delim (hs : s ≠ []) (hin : ¬ e <:+: s) {rounds : Nat}
    (hrounds : s.length < rounds) (fuel : Nat) (vect : List StdString) :
    parseWithEscRounds rounds s [] e fuel 0 vect = .error .diverges := by
  obtain ⟨rounds, rfl⟩ : ∃ n, rounds = n + 1 := ⟨rounds - 1, by omega⟩
  have hnone := find_eq_none_of_not_infix hin
  have hesc : e ≠ [] := fun heq => hin (heq ▸ List.nil_infix)
  have hempty : find [] e 0 = none :=
    find_eq_none_of_not_infix fun h => hesc (List.infix_nil.mp h)
  have hsub : s.substr 0 0 = some [] := by simp [substr]
  induction fuel generalizing vect with
  | zero => rfl
  | succ fuel ih =>
    rw [parseWithEscRounds, if_pos (List.length_pos_of_ne_nil hs), find_nil (Nat.zero_le _),
      stdFindStringWithEscLoop, hnone, if_neg (by simp), exec_bind_ok]
    dsimp only [Option.getD_some]
    rw [Nat.sub_self, hsub]
    dsimp only
    rw [stdStringReplaceWithEscLoop, hempty]
    exact ih _

end

/-! ## Result -/

/-- However many rounds the loops may make, from one more than the string has characters on:
`std_parse_string` ends exactly if the string is empty or the delimiter is not, and
`std_parse_string_with_esc` exactly if the string is empty, or the escape is not and there is a
delimiter or the string holds the escape. -/
theorem token_loops_end_iff {s d e : StdString} {n : Nat} (hn : s.length < n) :
    (stdParseStringLoop s d n 0 [] ≠ .error .diverges ↔ s = [] ∨ d ≠ []) ∧
      (parseWithEscRounds n s d e n 0 [] ≠ .error .diverges ↔
        s = [] ∨ e ≠ [] ∧ (d ≠ [] ∨ e <:+: s)) := by
  obtain ⟨n, rfl⟩ : ∃ m, n = m + 1 := ⟨n - 1, by omega⟩
  by_cases hs : s = []
  · subst hs
    constructor
    · exact iff_of_true (by simp [stdParseStringLoop]) (.inl rfl)
    · exact iff_of_true (by simp [parseWithEscRounds]) (.inl rfl)
  rw [or_iff_right hs, or_iff_right hs]
  constructor
  · constructor
    · rintro hends rfl
      exact hends (parseStringLoop_diverges hs _ _)
    · intro hd
      obtain ⟨r, hr, -⟩ := parseStringLoop_delivers (s := s) hd n 0 [] (by omega)
      rw [hr]
      simp
  · constructor
    · intro hends
      by_contra hcond
      by_cases he : e = []
      · subst he
        exact hends (parseWithEscRounds_diverges_of_esc hs hn d _ _)
      · rw [not_and, not_or, not_not] at hcond
        obtain ⟨rfl, hin⟩ := hcond he
        exact hends (parseWithEscRounds_diverges_of_delim hs hin hn _ _)
    · rintro ⟨he, h⟩
      obtain ⟨r, hr, -⟩ := stdParseStringWithEsc_delivers he h
      rw [parseWithEscRounds_of_loop hn (Nat.succ_le_of_lt hn) hr]
      simp

/-- Four rounds are enough for `a,b`. -/
theorem token_loops_end_sample :
    stdParseStringLoop [97, 44, 98] [44] 4 0 [] ≠ .error .diverges ∧
      parseWithEscRounds 4 [97, 44, 98] [44] [92] 4 0 [] ≠ .error .diverges := by
  obtain ⟨hplain, hesc⟩ :=
    token_loops_end_iff (s := [97, 44, 98]) (d := [44]) (e := [92]) (n := 4) (by decide)
  exact ⟨hplain.mpr (.inr (by decide)), hesc.mpr (.inr ⟨by decide, .inl (by decide)⟩)⟩

/-- No number of rounds is enough for the string `a` and the empty delimiter. -/
theorem empty_delim_never_ends : ¬ ∃ bound : Nat → Nat, ∀ s d e : StdString,
    0 ∉ s → 0 ∉ d → 0 ∉ e →
      stdParseStringLoop s d (bound s.length) 0 [] ≠ .error .diverges ∧
      parseWithEscRounds (bound s.length) s d e (bound s.length) 0 [] ≠ .error .diverges := by
  rintro ⟨bound, h⟩
  have hends := (h [97] [] [92] (by decide) (by decide) (by decide)).1
  exact hends (parseStringLoop_diverges (by decide) _ _)

end OpxCommonUtils.Text
