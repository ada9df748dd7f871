import OpxCommonUtils.Misc.MaskEdit
import OpxCommonUtils.User.Perm

/-!
# Permission clauses

`chomp` reads one clause (`chomp_clause`), and a string is accepted exactly when it is a list of
clauses (`chmodLoop_result`). A clause is an edit of the mode, and the loop runs the edits from the
mode of the file (`chmodLoop_clauses`). It knows by a mode without bits that no clause was read
yet, so that a later clause that finds no bit set begins again from the mode of the file.
-/

namespace OpxCommonUtils.User

/-! ## Clauses -/

/-- The class of users a clause is about. -/
inductive Who where
  | all
  | other
  | group
  | user
  deriving DecidableEq

/-- The character of a class. -/
def Who.char : Who → UInt8
  | .all => 97
  | .other => 111
  | .group => 103
  | .user => 117

/-- The operator of a clause. -/
inductive Oper where
  | assign
  | add
  | remove
  deriving DecidableEq

/-- The character of an operator. -/
def Oper.char : Oper → UInt8
  | .assign => 61
  | .add => 43
  | .remove => 45

/-- A permission. -/
inductive Perm where
  | r
  | w
  | x
  deriving DecidableEq

/-- The character of a permission. -/
def Perm.char : Perm → UInt8
  | .r => 114
  | .w => 119
  | .x => 120

/-- A clause: perhaps a class, perhaps an operator, and permissions. -/
structure Clause where
  who : Option Who
  oper : Option Oper
  perms : List Perm
  perms_ne : perms ≠ []

/-- The characters in front of an operator. -/
def whoText (who : Option Who) : StdString := (who.map Who.char).toList

/-- The characters in front of the permissions. -/
def operText (oper : Option Oper) : StdString := (oper.map Oper.char).toList

/-- The characters of permissions. -/
def permsText (perms : List Perm) : StdString := perms.map Perm.char

namespace Clause

/-- The characters of a clause. -/
def text (c : Clause) : StdString := whoText c.who ++ (operText c.oper ++ permsText c.perms)

/-- The class of a clause, the user if it names none. -/
def subject (c : Clause) : Who := c.who.getD .user

/-- The operator of a clause, `+` if it has none. -/
def action (c : Clause) : Oper := c.oper.getD .add

end Clause

/-- The characters of clauses one after the other. -/
def text (cs : List Clause) : StdString := cs.flatMap Clause.text

/-- The permissions of a class, by their characters. -/
def Who.table (w : Who) : List (UInt8 × Mode) := (permMap.lookup w.char).getD []

/-- The bit or bits of a permission for a class. -/
def Who.mode (w : Who) (p : Perm) : Mode := (w.table.lookup p.char).getD 0

/-- The bits of permissions for a class. -/
def Who.modes (w : Who) (perms : List Perm) : Mode := perms.foldl (fun m p => m ||| w.mode p) 0

/-- What a clause does to a mode. -/
def Clause.edit (c : Clause) : MaskEdit 32 :=
  match c.action with
  | .assign => .assign (c.subject.modes c.perms)
  | .add => .set (c.subject.modes c.perms)
  | .remove => .clear (c.subject.modes c.perms)

/-- Whether a character names a permission. -/
def isPerm (c : UInt8) : Bool := c = 114 ∨ c = 119 ∨ c = 120

/-! ## The tables -/

theorem permMap_who (w : Who) : permMap.lookup w.char = some w.table := by
  cases w <;> rfl

theorem permMap_eq_none {c : UInt8} (h : ∀ w : Who, c ≠ w.char) : permMap.lookup c = none := by
  have ha := h .all
  have ho := h .other
  have hg := h .group
  have hu := h .user
  simp only [Who.char] at ha ho hg hu
  rw [List.lookup_eq_none_iff]
  simp [permMap, ha, ho, hg, hu]

theorem permMap_oper (o : Oper) : permMap.lookup o.char = none := by
  cases o <;> rfl

theorem permMap_perm (p : Perm) : permMap.lookup p.char = none := by
  cases p <;> rfl

theorem validOper_char (o : Oper) : validOper o.char = true := by
  cases o <;> rfl

theorem validOper_perm (p : Perm) : validOper p.char = false := by
  cases p <;> rfl

theorem isPerm_char (p : Perm) : isPerm p.char = true := by
  cases p <;> rfl

theorem Who.char_ne_zero (w : Who) : w.char ≠ 0 := by
  cases w <;> decide

theorem Oper.char_ne_zero (o : Oper) : o.char ≠ 0 := by
  cases o <;> decide

theorem Perm.char_ne_zero (p : Perm) : p.char ≠ 0 := by
  cases p <;> decide

theorem isPerm_who (w : Who) : isPerm w.char = false := by
  cases w <;> rfl

theorem isPerm_oper (o : Oper) : isPerm o.char = false := by
  cases o <;> rfl

theorem dropWhile_permsText (perms : List Perm) (s : StdString) :
    (permsText perms ++ s).dropWhile isPerm = s.dropWhile isPerm := by
  apply List.dropWhile_append_of_pos
  intro a ha
  obtain ⟨p, -, rfl⟩ := List.mem_map.mp ha
  exact isPerm_char p

theorem table_perm (w : Who) (p : Perm) : w.table.lookup p.char = some (w.mode p) := by
  cases w <;> cases p <;> rfl

theorem exists_perm {c : UInt8} (h : isPerm c = true) : ∃ p : Perm, c = p.char := by
  simp only [isPerm, decide_eq_true_eq] at h
  rcases h with rfl | rfl | rfl
  · exact ⟨.r, rfl⟩
  · exact ⟨.w, rfl⟩
  · exact ⟨.x, rfl⟩

theorem exists_oper {c : UInt8} (h : validOper c = true) : ∃ o : Oper, c = o.char := by
  simp only [validOper, decide_eq_true_eq] at h
  rcases h with rfl | rfl | rfl
  · exact ⟨.assign, rfl⟩
  · exact ⟨.add, rfl⟩
  · exact ⟨.remove, rfl⟩

theorem table_not_perm (w : Who) {c : UInt8} (h : isPerm c = false) : w.table.lookup c = none := by
  simp only [isPerm, decide_eq_false_iff_not, not_or] at h
  obtain ⟨h1, h2, h3⟩ := h
  have hkeys : w.table.map Prod.fst = [114, 119, 120] := by
    cases w <;> rfl
  rw [List.lookup_eq_none_iff]
  intro a ha
  have hkey : a.1 ∈ w.table.map Prod.fst := List.mem_map_of_mem ha
  rw [hkeys, List.mem_cons, List.mem_cons, List.mem_singleton] at hkey
  rcases hkey with hkey | hkey | hkey
  · simpa [hkey] using h1
  · simpa [hkey] using h2
  · simpa [hkey] using h3

theorem exists_who {c : UInt8} (h : permMap.lookup c ≠ none) : ∃ w : Who, c = w.char := by
  by_contra hno
  simp only [not_exists] at hno
  exact h (permMap_eq_none hno)

/-! ## Reading a clause -/

/-- The loop over the permissions stops at the first character that names none. -/
theorem chompPerms_rest (w : Who) (s : StdString) (mod : Mode) :
    (chompPerms w.table s mod).1 = s.dropWhile isPerm := by
  induction s generalizing mod with
  | nil => rfl
  | cons c s ih =>
    rw [chompPerms]
    cases hc : isPerm c with
    | true =>
      obtain ⟨p, rfl⟩ := exists_perm hc
      rw [table_perm, List.dropWhile_cons_of_pos hc]
      exact ih _
    | false => rw [table_not_perm w hc, List.dropWhile_cons_of_neg (by simp [hc])]

theorem chompPerms_perms (w : Who) {r : StdString} (hr : isPerm (elemAt r) = false)
    (perms : List Perm) (mod : Mode) :
    (chompPerms w.table (permsText perms ++ r) mod).2 =
      perms.foldl (fun m p => m ||| w.mode p) mod := by
  induction perms generalizing mod with
  | nil =>
    cases r with
    | nil => rfl
    | cons c r =>
      have hc : w.table.lookup c = none := table_not_perm w hr
      simp [permsText, chompPerms, hc]
  | cons p perms ih =>
    have hstep : chompPerms w.table (permsText (p :: perms) ++ r) mod =
        chompPerms w.table (permsText perms ++ r) (mod ||| w.mode p) := by
      simp [permsText, chompPerms, table_perm]
    rw [hstep, ih]
    rfl

/-- What `chomp` does behind a class and an operator, of which either may be missing. -/
theorem chomp_reads {who : Option Who} {oper : Option Oper} {s : StdString}
    (hwho : who = none → permMap.lookup (elemAt (operText oper ++ s)) = none)
    (hoper : oper = none → validOper (elemAt s) = false) (mod : Mode) :
    chomp (whoText who ++ (operText oper ++ s)) mod =
      ((who.getD .user).table.lookup (elemAt s)).elim (.ok (.error s)) fun _ =>
        .ok (.ok ((chompPerms (who.getD .user).table s mod).1, (oper.getD .add).char,
          (chompPerms (who.getD .user).table s mod).2)) := by
  have hname : (if (permMap.lookup (elemAt (whoText who ++ (operText oper ++ s)))).isSome
      then elemAt (whoText who ++ (operText oper ++ s)) else 117) = (who.getD .user).char ∧
      (if (permMap.lookup (elemAt (whoText who ++ (operText oper ++ s)))).isSome
        then (whoText who ++ (operText oper ++ s)).tail
        else whoText who ++ (operText oper ++ s)) = operText oper ++ s := by
    cases who with
    | none =>
      have hnone := hwho rfl
      simp only [whoText, Option.map_none, Option.toList_none, List.nil_append, hnone]
      exact ⟨rfl, rfl⟩
    | some w =>
      have hsome : permMap.lookup (elemAt (whoText (some w) ++ (operText oper ++ s))) =
          some w.table := permMap_who w
      rw [hsome]
      exact ⟨rfl, rfl⟩
  have hsign : (if validOper (elemAt (operText oper ++ s)) then elemAt (operText oper ++ s)
      else 43) = (oper.getD .add).char ∧
      (if validOper (elemAt (operText oper ++ s)) then (operText oper ++ s).tail
        else operText oper ++ s) = s := by
    cases oper with
    | none =>
      have hnone := hoper rfl
      simp only [operText, Option.map_none, Option.toList_none, List.nil_append, hnone]
      exact ⟨rfl, rfl⟩
    | some o =>
      have hsome : validOper (elemAt (operText (some o) ++ s)) = true := validOper_char o
      rw [hsome]
      exact ⟨rfl, rfl⟩
  unfold chomp
  dsimp only
  rw [hname.1, hname.2, hsign.1, hsign.2, permMap_who]
  dsimp only
  cases (who.getD .user).table.lookup (elemAt s) <;> rfl

/-- Behind a class and an operator there has to be a permission. -/
theorem chomp_error {who : Option Who} {oper : Option Oper} {s : StdString}
    (hwho : who = none → permMap.lookup (elemAt (operText oper ++ s)) = none)
    (hoper : oper = none → validOper (elemAt s) = false) (hs : isPerm (elemAt s) = false)
    (mod : Mode) :
    chomp (whoText who ++ (operText oper ++ s)) mod = .ok (.error s) := by
  rw [chomp_reads hwho hoper, table_not_perm _ hs]
  rfl

/-- `chomp` reads a clause, and takes the permissions that follow for its own. -/
theorem chomp_clause (c : Clause) (s : StdString) (mod : Mode) :
    chomp (c.text ++ s) mod =
      .ok (.ok (s.dropWhile isPerm, c.action.char,
        (chompPerms c.subject.table (permsText c.perms ++ s) mod).2)) := by
  obtain ⟨p, perms, hperms⟩ := List.exists_cons_of_ne_nil c.perms_ne
  have hhead : elemAt (permsText c.perms ++ s) = p.char := by rw [hperms]; rfl
  have htext : c.text ++ s = whoText c.who ++ (operText c.oper ++ (permsText c.perms ++ s)) := by
    simp [Clause.text]
  have hwho : c.who = none →
      permMap.lookup (elemAt (operText c.oper ++ (permsText c.perms ++ s))) = none := by
    intro _
    cases c.oper with
    | none => exact hhead ▸ permMap_perm p
    | some o => exact permMap_oper o
  have hoper : c.oper = none → validOper (elemAt (permsText c.perms ++ s)) = false :=
    fun _ => hhead ▸ validOper_perm p
  rw [htext, chomp_reads hwho hoper, hhead, table_perm, Option.elim_some, chompPerms_rest,
    dropWhile_permsText]
  rfl

theorem exists_whoText (s : StdString) :
    ∃ who r, s = whoText who ++ r ∧ (who = none → permMap.lookup (elemAt r) = none) := by
  by_cases h : permMap.lookup (elemAt s) = none
  · exact ⟨none, s, rfl, fun _ => h⟩
  · obtain ⟨w, hw⟩ := exists_who h
    cases s with
    | nil => exact absurd rfl h
    | cons c r => exact ⟨some w, r, congrArg (· :: r) hw, fun hnone => absurd hnone (by simp)⟩

theorem exists_operText (s : StdString) :
    ∃ oper r, s = operText oper ++ r ∧ (oper = none → validOper (elemAt r) = false) := by
  cases h : validOper (elemAt s) with
  | false => exact ⟨none, s, rfl, fun _ => h⟩
  | true =>
    obtain ⟨o, ho⟩ := exists_oper h
    cases s with
    | nil => cases h
    | cons c r => exact ⟨some o, r, congrArg (· :: r) ho, fun hnone => absurd hnone (by simp)⟩

theorem exists_permsText (s : StdString) : ∃ perms, s.takeWhile isPerm = permsText perms := by
  induction s with
  | nil => exact ⟨[], rfl⟩
  | cons c s ih =>
    cases hc : isPerm c with
    | false => exact ⟨[], List.takeWhile_cons_of_neg (by simp [hc])⟩
    | true =>
      obtain ⟨p, rfl⟩ := exists_perm hc
      obtain ⟨perms, hperms⟩ := ih
      refine ⟨p :: perms, ?_⟩
      rw [List.takeWhile_cons_of_pos hc, hperms]
      rfl

/-- A string begins with a clause, or `chomp` finds it invalid. -/
theorem chomp_total (s : StdString) (mod : Mode) :
    (∃ c r, s = Clause.text c ++ r) ∨ ∃ r, chomp s mod = .ok (.error r) := by
  obtain ⟨who, s, rfl, hwho⟩ := exists_whoText s
  obtain ⟨oper, s, rfl, hoper⟩ := exists_operText s
  cases h : isPerm (elemAt s) with
  | false => exact .inr ⟨s, chomp_error hwho hoper h mod⟩
  | true =>
    obtain ⟨perms, hperms⟩ := exists_permsText s
    have hne : perms ≠ [] := by
      intro hnil
      cases s with
      | nil => cases h
      | cons c s =>
        have hc : isPerm c = true := h
        rw [List.takeWhile_cons_of_pos hc, hnil] at hperms
        cases hperms
    refine .inl ⟨⟨who, oper, perms, hne⟩, s.dropWhile isPerm, ?_⟩
    have hsplit : s = permsText perms ++ s.dropWhile isPerm := by
      rw [← hperms, List.takeWhile_append_dropWhile]
    rw [Clause.text, List.append_assoc, List.append_assoc, ← hsplit]

/-! ## Strings of clauses -/

/-- A string of clauses. -/
def Accepted (s : StdString) : Prop := ∃ cs, s = text cs

theorem text_cons (c : Clause) (cs : List Clause) : text (c :: cs) = c.text ++ text cs := rfl

theorem text_append (cs ds : List Clause) : text (cs ++ ds) = text cs ++ text ds :=
  List.flatMap_append

theorem Clause.text_ne_nil (c : Clause) : c.text ≠ [] := by
  simp [Clause.text, permsText, c.perms_ne]

theorem Accepted.cons (c : Clause) {s : StdString} (h : Accepted s) : Accepted (c.text ++ s) := by
  obtain ⟨cs, rfl⟩ := h
  exact ⟨c :: cs, rfl⟩

/-- A string of clauses that is not empty begins with one. -/
theorem Accepted.eq_cons {s : StdString} (h : Accepted s) (hne : s ≠ []) :
    ∃ c t, s = Clause.text c ++ t ∧ Accepted t := by
  obtain ⟨cs, rfl⟩ := h
  cases cs with
  | nil => exact absurd rfl hne
  | cons c cs => exact ⟨c, text cs, rfl, cs, rfl⟩

/-- Whether a clause has an operator. -/
def Clause.Explicit (c : Clause) : Prop := c.oper ≠ none

/-- A clause with a class or an operator does not begin with a permission. -/
theorem Clause.isPerm_elemAt {c : Clause} (h : c.who ≠ none ∨ c.oper ≠ none) (s : StdString) :
    isPerm (elemAt (c.text ++ s)) = false := by
  obtain ⟨who, oper, perms, hne⟩ := c
  cases who with
  | some w => exact isPerm_who w
  | none =>
    cases oper with
    | some o => exact isPerm_oper o
    | none => simp at h

theorem dropWhile_of_elemAt {s : StdString} (h : isPerm (elemAt s) = false) :
    s.dropWhile isPerm = s := by
  cases s with
  | nil => rfl
  | cons c s => exact List.dropWhile_cons_of_neg (by simpa [elemAt] using h)

/-- The permissions that a clause takes from the next one leave clauses: a clause that begins with
a permission is permissions only. -/
theorem Accepted.dropWhile {s : StdString} (h : Accepted s) : Accepted (s.dropWhile isPerm) := by
  obtain ⟨cs, rfl⟩ := h
  induction cs with
  | nil => exact ⟨[], rfl⟩
  | cons c cs ih =>
    by_cases hc : c.who ≠ none ∨ c.oper ≠ none
    · rw [text_cons, dropWhile_of_elemAt (c.isPerm_elemAt hc (text cs))]
      exact ⟨c :: cs, rfl⟩
    · simp only [ne_eq, not_or, not_not] at hc
      have htext : c.text = permsText c.perms := by
        simp [Clause.text, whoText, operText, hc.1, hc.2]
      rw [text_cons, htext, dropWhile_permsText]
      exact ih

/-- Behind a clause and the permissions it takes, a string is one of clauses exactly when it was
before. -/
theorem accepted_clause (c : Clause) (s : StdString) :
    Accepted (c.text ++ s) ↔ Accepted (s.dropWhile isPerm) := by
  constructor
  · intro h
    obtain ⟨c', t, heq, ht⟩ := h.eq_cons (by simp [c.text_ne_nil])
    have hchomp := chomp_clause c s 0
    rw [heq, chomp_clause c' t 0] at hchomp
    have hrest : t.dropWhile isPerm = s.dropWhile isPerm := by
      injection hchomp with hchomp
      injection hchomp with hchomp
      injection hchomp
    exact hrest ▸ ht.dropWhile
  · intro h
    obtain ⟨perms, hperms⟩ := exists_permsText s
    have hsplit : s = permsText perms ++ s.dropWhile isPerm := by
      rw [← hperms, List.takeWhile_append_dropWhile]
    have hne : c.perms ++ perms ≠ [] := by simp [c.perms_ne]
    have htext : c.text ++ s =
        Clause.text ⟨c.who, c.oper, c.perms ++ perms, hne⟩ ++ s.dropWhile isPerm := by
      have hjoin : c.text ++ s = c.text ++ (permsText perms ++ s.dropWhile isPerm) := by
        rw [← hsplit]
      rw [hjoin]
      simp [Clause.text, permsText]
    rw [htext]
    exact h.cons _

/-! ## The loop -/

theorem elemAt_eq_zero {s : StdString} (h : 0 ∉ s) : elemAt s = 0 ↔ s = [] := by
  cases s with
  | nil => exact iff_of_true rfl rfl
  | cons c s =>
    have hc : c ≠ 0 := fun hzero => h (hzero ▸ List.mem_cons_self)
    simpa [elemAt] using hc

/-- The loop accepts the strings of clauses, and no others. -/
theorem chmodLoop_result (st : Mode) :
    ∀ (fuel : Nat) (s : StdString) (mod : Mode), s.length < fuel → 0 ∉ s →
      (∃ mod', chmodLoop st fuel s mod = .ok (.ok mod') ∧ Accepted s) ∨
        ∃ elem, chmodLoop st fuel s mod = .ok (.error elem) ∧ ¬ Accepted s := by
  intro fuel
  induction fuel with
  | zero => intro s mod hfuel; omega
  | succ fuel ih =>
    intro s mod hfuel hnul
    by_cases hs : s = []
    · subst hs
      exact .inl ⟨mod, rfl, [], rfl⟩
    · have helem : ¬ elemAt s = 0 := fun h => hs ((elemAt_eq_zero hnul).mp h)
      rw [chmodLoop, if_neg helem]
      rcases chomp_total s 0 with ⟨c, t, rfl⟩ | ⟨r, hr⟩
      · have hpos : 0 < c.text.length := List.length_pos_of_ne_nil c.text_ne_nil
        have hle := List.length_dropWhile_le isPerm t
        have hlen : (t.dropWhile isPerm).length < fuel := by
          rw [List.length_append] at hfuel
          omega
        have hnulr : 0 ∉ t.dropWhile isPerm := fun h =>
          hnul (List.mem_append_right _ (List.dropWhile_subset _ h))
        rw [chomp_clause, exec_bind_ok, accepted_clause]
        exact ih _ _ hlen hnulr
      · right
        rw [hr, exec_bind_ok]
        refine ⟨elemAt r, rfl, ?_⟩
        intro hacc
        -- a string of clauses begins with a clause, which `chomp` reads
        obtain ⟨c, t, rfl, -⟩ := hacc.eq_cons hs
        rw [chomp_clause] at hr
        cases hr

theorem text_explicit {cs : List Clause} (h : ∀ c ∈ cs, c.Explicit) :
    isPerm (elemAt (text cs)) = false := by
  cases cs with
  | nil => rfl
  | cons c cs =>
    rw [text_cons]
    exact c.isPerm_elemAt (.inr (h c List.mem_cons_self)) (text cs)

theorem Clause.elemAt_ne_zero (c : Clause) (s : StdString) : ¬ elemAt (c.text ++ s) = 0 := by
  obtain ⟨who, oper, perms, hne⟩ := c
  obtain ⟨p, perms, rfl⟩ := List.exists_cons_of_ne_nil hne
  cases who with
  | some w => exact w.char_ne_zero
  | none =>
    cases oper with
    | some o => exact o.char_ne_zero
    | none => exact p.char_ne_zero

/-- The loop makes the edits of the clauses, from the mode of the file. -/
theorem chmodLoop_clauses (st : Mode) {cs : List Clause} (hcs : ∀ c ∈ cs, c.Explicit)
    (mod : Mode) {fuel : Nat} (hfuel : (text cs).length < fuel) :
    chmodLoop st fuel (text cs) mod =
      .ok (.ok (MaskEdit.runFrom (st &&& allModeMask) mod (cs.map Clause.edit))) := by
  induction cs generalizing mod fuel with
  | nil =>
    obtain ⟨fuel, rfl⟩ : ∃ n, fuel = n + 1 := ⟨fuel - 1, by omega⟩
    rfl
  | cons c cs ih =>
    obtain ⟨fuel, rfl⟩ : ∃ n, fuel = n + 1 := ⟨fuel - 1, by omega⟩
    have hcs' : ∀ d ∈ cs, d.Explicit := fun d hd => hcs d (List.mem_cons_of_mem c hd)
    have hrest := text_explicit hcs'
    have hpos : 0 < c.text.length := List.length_pos_of_ne_nil c.text_ne_nil
    rw [text_cons, List.length_append] at hfuel
    have hlen : (text cs).length < fuel := by omega
    rw [text_cons, chmodLoop, if_neg (c.elemAt_ne_zero _), chomp_clause, exec_bind_ok,
      dropWhile_of_elemAt hrest, chompPerms_perms _ hrest]
    rw [List.map_cons, MaskEdit.runFrom_cons, Clause.edit]
    cases c.action with
    | assign => exact ih hcs' _ hlen
    | add => exact ih hcs' _ hlen
    | remove => exact ih hcs' _ hlen

/-! ## Calls -/

theorem Who.mode_within (w : Who) (p : Perm) : MaskEdit.Within allModeMask (w.mode p) := by
  have hmask : w.mode p &&& allModeMask = w.mode p := by
    cases w <;> cases p <;> rfl
  rw [← hmask]
  exact MaskEdit.within_and _ _

theorem Who.modes_within (w : Who) (perms : List Perm) :
    MaskEdit.Within allModeMask (w.modes perms) := by
  have hrun : ∀ (ps : List Perm) (m : Mode), MaskEdit.Within allModeMask m →
      MaskEdit.Within allModeMask (ps.foldl (fun m p => m ||| w.mode p) m) := by
    intro ps
    induction ps with
    | nil => exact fun m hm => hm
    | cons p ps ih => exact fun m hm => ih _ (hm.or (w.mode_within p))
  exact hrun perms 0 (MaskEdit.within_zero _)

theorem Clause.edit_within (c : Clause) : MaskEdit.Within allModeMask c.edit.bits := by
  rw [Clause.edit]
  cases c.action <;> exact c.subject.modes_within c.perms

/-- The edits that clauses make. -/
def edits (cs : List Clause) : List (MaskEdit 32) := cs.map Clause.edit

/-- `chmod` sets the permission bits to those it is given. -/
theorem chmod_permissions (st : Mode) {mod : Mode} (h : MaskEdit.Within allModeMask mod) :
    ((st &&& ~~~modeBits) ||| (mod &&& modeBits)) &&& allModeMask = mod := by
  have hout : ~~~modeBits &&& allModeMask = 0 := rfl
  have hin : modeBits &&& allModeMask = allModeMask := rfl
  rw [BitVec.and_or_distrib_right, BitVec.and_assoc, BitVec.and_assoc, hout, hin, h.and_eq]
  simp

/-- A call with clauses makes their edits, from no bits and with the mode of the file as base. -/
theorem stdUserChmod_clauses {d : Files} {path : StdString} {st : Mode}
    (hst : d.stat path = .ok st) (hallow : ∀ mod, d.refuses path mod = none)
    {cs : List Clause} (hcs : ∀ c ∈ cs, c.Explicit) :
    ∃ d' st', stdUserChmod d path (text cs) = .ok (.ok, d') ∧ d'.stat path = .ok st' ∧
      (∀ mod, d'.refuses path mod = none) ∧
      d'.permissions path = MaskEdit.runFrom (d.permissions path) 0 (edits cs) := by
  have hperm : d.permissions path = st &&& allModeMask := by rw [Files.permissions, hst]
  have hwithin : MaskEdit.Within allModeMask
      (MaskEdit.runFrom (st &&& allModeMask) 0 (cs.map Clause.edit)) := by
    apply MaskEdit.runFrom_within (MaskEdit.within_and _ _) _ (MaskEdit.within_zero _)
    intro e he
    obtain ⟨c, -, rfl⟩ := List.mem_map.mp he
    exact c.edit_within
  have hloop := chmodLoop_clauses st hcs 0 (Nat.lt_succ_self _)
  rw [stdUserChmod, hst]
  dsimp only
  rw [hloop, exec_bind_ok]
  dsimp only
  rw [Files.chmod, hst]
  dsimp only
  rw [hallow]
  refine ⟨_, _, rfl, if_pos rfl, hallow, ?_⟩
  rw [Files.permissions, hperm, edits]
  dsimp only
  rw [if_pos rfl]
  exact chmod_permissions st hwithin

/-- A call fails with the file unchanged exactly when the string is not one of clauses. -/
theorem stdUserChmod_fails_iff {d : Files} {path : StdString} {st : Mode}
    (hst : d.stat path = .ok st) (hallow : ∀ mod, d.refuses path mod = none)
    {s : StdString} (hs : 0 ∉ s) :
    (∃ err, err ≠ .ok ∧ stdUserChmod d path s = .ok (err, d)) ↔ ¬ Accepted s := by
  rw [stdUserChmod, hst]
  dsimp only
  rcases chmodLoop_result st (s.length + 1) s 0 (Nat.lt_succ_self _) hs with
    ⟨mod, hloop, hacc⟩ | ⟨elem, hloop, hacc⟩
  · rw [hloop, exec_bind_ok]
    dsimp only
    rw [Files.chmod, hst]
    dsimp only
    rw [hallow]
    refine iff_of_false ?_ (fun h => h hacc)
    intro h
    obtain ⟨err, hne, heq⟩ := h
    injection heq with heq
    injection heq with herr
    exact hne herr.symm
  · rw [hloop, exec_bind_ok]
    exact iff_of_true ⟨.param elem, (by simp), rfl⟩ hacc

/-- Two lists of clauses: from the mode that the first leaves, one call and two make the edits of
the second, and differ in the base. -/
theorem stdUserChmod_calls {d : Files} {path : StdString} {st : Mode}
    (hst : d.stat path = .ok st) (hallow : ∀ mod, d.refuses path mod = none)
    {cs ds : List Clause} (hcs : ∀ c ∈ cs, c.Explicit) (hds : ∀ c ∈ ds, c.Explicit)
    (hdne : ds ≠ []) :
    ∃ d1 d2 d3, stdUserChmod d path (text cs) = .ok (.ok, d1) ∧
      stdUserChmod d1 path (text ds) = .ok (.ok, d2) ∧
      stdUserChmod d path (text cs ++ text ds) = .ok (.ok, d3) ∧
      d1.permissions path = MaskEdit.runFrom (d.permissions path) 0 (edits cs) ∧
      d2.permissions path =
        MaskEdit.runFrom (d1.permissions path) (d1.permissions path) (edits ds) ∧
      d3.permissions path =
        MaskEdit.runFrom (d.permissions path) (d1.permissions path) (edits ds) := by
  obtain ⟨d1, st1, hcall1, hst1, hallow1, hperm1⟩ := stdUserChmod_clauses hst hallow hcs
  obtain ⟨d2, st2, hcall2, hst2, hallow2, hperm2⟩ := stdUserChmod_clauses hst1 hallow1 hds
  have happ : ∀ c ∈ cs ++ ds, c.Explicit :=
    fun c hc => (List.mem_append.mp hc).elim (hcs c) (hds c)
  obtain ⟨d3, st3, hcall3, hst3, hallow3, hperm3⟩ := stdUserChmod_clauses hst hallow happ
  have hne : edits ds ≠ [] := by simpa [edits] using hdne
  have hedits : edits (cs ++ ds) = edits cs ++ edits ds := List.map_append
  rw [MaskEdit.runFrom_zero _ hne] at hperm2
  rw [hedits, MaskEdit.runFrom_append, ← hperm1] at hperm3
  exact ⟨d1, d2, d3, hcall1, hcall2, by rw [← text_append]; exact hcall3, hperm1, hperm2, hperm3⟩

/-- When the calls of `std_user_chmod` compose: one call and two leave the same permissions when every
clause of the second list that is not an assignment finds a bit set. A string that is not one of
clauses is an error. -/
theorem stdUserChmod_compose {d : Files} {path : StdString} {st : Mode}
    (hst : d.stat path = .ok st) (hallow : ∀ mod, d.refuses path mod = none) :
    (∀ cs ds : List Clause, (∀ c ∈ cs, c.Explicit) → (∀ c ∈ ds, c.Explicit) → ds ≠ [] →
      MaskEdit.FindsBits (MaskEdit.runFrom (d.permissions path) 0 (edits cs)) (edits ds) →
      ∃ d1 d2 d3, stdUserChmod d path (text cs) = .ok (.ok, d1) ∧
        stdUserChmod d1 path (text ds) = .ok (.ok, d2) ∧
        stdUserChmod d path (text cs ++ text ds) = .ok (.ok, d3) ∧
        d3.permissions path = d2.permissions path) ∧
    ∀ s : StdString, 0 ∉ s →
      ((∃ err, err ≠ .ok ∧ stdUserChmod d path s = .ok (err, d)) ↔ ¬ Accepted s) := by
  refine ⟨?_, fun s hs => stdUserChmod_fails_iff hst hallow hs⟩
  intro cs ds hcs hds hdne hbits
  obtain ⟨d1, d2, d3, hcall1, hcall2, hcall3, hperm1, hperm2, hperm3⟩ :=
    stdUserChmod_calls hst hallow hcs hds hdne
  refine ⟨d1, d2, d3, hcall1, hcall2, hcall3, ?_⟩
  rw [hperm2, hperm3]
  rw [← hperm1] at hbits
  exact MaskEdit.runFrom_of_findsBits hbits _ _

/-- A regular file that all may read. -/
def readOnly : Files := ⟨fun _ => .ok 0o100444, fun _ _ => none⟩

/-- `a-r`. -/
def allRemoveRead : Clause := ⟨some .all, some .remove, [.r], by simp⟩

/-- `+x`. -/
def addExecute : Clause := ⟨none, some .add, [.x], by simp⟩

/-- `u=r`. -/
def userAssignRead : Clause := ⟨some .user, some .assign, [.r], by simp⟩

/-- `a-r` and then `u=r` and `+x`, which finds the read bit of the user. -/
theorem stdUserChmod_compose_readOnly :
    (∃ d1 d2 d3, stdUserChmod readOnly [] (text [allRemoveRead]) = .ok (.ok, d1) ∧
      stdUserChmod d1 [] (text [userAssignRead, addExecute]) = .ok (.ok, d2) ∧
      stdUserChmod readOnly [] (text [allRemoveRead] ++ text [userAssignRead, addExecute]) =
        .ok (.ok, d3) ∧
      d3.permissions [] = d2.permissions []) ∧
    ∀ s : StdString, 0 ∉ s →
      ((∃ err, err ≠ .ok ∧ stdUserChmod readOnly [] s = .ok (err, readOnly)) ↔ ¬ Accepted s) := by
  obtain ⟨hcompose, hfails⟩ := @stdUserChmod_compose readOnly [] _ rfl fun _ => rfl
  refine ⟨hcompose _ _ ?_ ?_ (by simp) ⟨by decide, trivial⟩, hfails⟩
  · simp [Clause.Explicit, allRemoveRead]
  · simp [Clause.Explicit, userAssignRead, addExecute]

/-- `a-r` leaves no bit set, so the `+x` behind it begins again from the mode of the file. -/
theorem stdUserChmod_restarts :
    ∃ d1 d2 d3, stdUserChmod readOnly [] (text [allRemoveRead]) = .ok (.ok, d1) ∧
      stdUserChmod d1 [] (text [addExecute]) = .ok (.ok, d2) ∧
      stdUserChmod readOnly [] (text [allRemoveRead] ++ text [addExecute]) = .ok (.ok, d3) ∧
      d2.permissions [] = 0o100 ∧ d3.permissions [] = 0o544 :=
  ⟨_, _, _, rfl, rfl, rfl, rfl, rfl⟩

end OpxCommonUtils.User
