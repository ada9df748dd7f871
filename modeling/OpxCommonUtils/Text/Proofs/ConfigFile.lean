import OpxCommonUtils.Text.ConfigFile

/-!
# A written configuration is read back

The reader takes a line of a group or of a key for what the writer meant it to be
(`loadFileLoop_group`, `loadFileLoop_key`), so it makes the assignments of the entries in the
order in which they were written (`loadFileLoop_groups`). A configuration that was built by
`std_config_file_set` has no group without a key and no NUL in a string (`Built`), and so it is
what the assignments make of the empty one.
-/

namespace OpxCommonUtils.Text

open StdString

/-- A sequence of calls of `std_config_file_set` on a new configuration. -/
def setAll (sets : List (StdString × StdString × StdString)) : ConfigFile :=
  sets.foldl (fun d x => stdConfigFileSet d x.1 x.2.1 x.2.2) stdConfigFileCreate

/-- A string that neither starts nor ends with white space. -/
def Trimmed (s : StdString) : Prop :=
  (∀ c, s.head? = some c → isspace c = false) ∧ ∀ c, s.getLast? = some c → isspace c = false

/-- The name of a group that a line holds. -/
structure PlainGroup (group : StdString) : Prop where
  close : 93 ∉ group
  newline : 10 ∉ group
  fits : (groupLine group).length ≤ BUFF_LEN - 1

/-- A key and its value that a line holds. -/
structure PlainEntry (key value : StdString) : Prop where
  key_equals : 61 ∉ key
  key_newline : 10 ∉ key
  key_open : key.head? ≠ some 91
  key_trimmed : Trimmed key
  value_newline : 10 ∉ value
  value_trimmed : Trimmed value
  fits : (keyLine (key, value)).length ≤ BUFF_LEN - 1

/-- A configuration that a file holds. -/
def ConfigFile.Plain (d : ConfigFile) : Prop :=
  ∀ (group : StdString) (m : MapOfStrings), d[group]? = some m →
    PlainGroup group ∧ ∀ key value : StdString, m[key]? = some value → PlainEntry key value

/-- What `std_config_file_set` keeps: no group is without a key, and no string holds a NUL. -/
def ConfigFile.Built (d : ConfigFile) : Prop :=
  ∀ (group : StdString) (m : MapOfStrings), d[group]? = some m → 0 ∉ group ∧ m ≠ ∅ ∧
    ∀ key value : StdString, m[key]? = some value → 0 ∉ key ∧ 0 ∉ value

theorem zero_not_mem_cStr (s : StdString) : 0 ∉ s.cStr := by
  intro h
  have hne := List.mem_takeWhile_imp h
  simp at hne

/-- An entry after an assignment is the assigned one or was there before. -/
theorem entry_assign {d : ConfigFile} {group key value g : StdString} {m : MapOfStrings}
    (hm : (d.assign group key value)[g]? = some m) : d[g]? = some m ∨ g = group ∧ m ≠ ∅ ∧
      ∀ k v, m[k]? = some v → k = key ∧ v = value ∨ ∃ old, d[g]? = some old ∧ old[k]? = some v := by
  rw [ConfigFile.assign, Std.ExtTreeMap.getElem?_alter] at hm
  by_cases hg : group = g
  · subst hg
    rw [if_pos (by simp)] at hm
    obtain rfl := Option.some.inj hm
    refine .inr ⟨rfl, by simp, ?_⟩
    intro k v hv
    rw [Std.ExtTreeMap.getElem?_insert] at hv
    by_cases hk : key = k
    · rw [if_pos (by simpa using hk)] at hv
      exact .inl ⟨hk.symm, (Option.some.inj hv).symm⟩
    · rw [if_neg (by simpa using hk)] at hv
      cases hold : d[group]? with
      | none => simp [hold] at hv
      | some old =>
        rw [hold, Option.getD_some] at hv
        exact .inr ⟨old, rfl, hv⟩
  · rw [if_neg (by simpa using hg)] at hm
    exact .inl hm

theorem ConfigFile.Built.set {d : ConfigFile} (h : d.Built) (group key str : StdString) :
    (stdConfigFileSet d group key str).Built := by
  intro g m hm
  rcases entry_assign hm with hm | ⟨rfl, hne, hentries⟩
  · exact h g m hm
  refine ⟨zero_not_mem_cStr group, hne, ?_⟩
  intro k v hv
  rcases hentries k v hv with ⟨rfl, rfl⟩ | ⟨old, hold, hv⟩
  · exact ⟨zero_not_mem_cStr key, zero_not_mem_cStr str⟩
  · exact (h _ old hold).2.2 k v hv

theorem ConfigFile.Plain.set {d : ConfigFile} (h : d.Plain) {group key str : StdString}
    (hgroup : PlainGroup group.cStr) (hentry : PlainEntry key.cStr str.cStr) :
    (stdConfigFileSet d group key str).Plain := by
  intro g m hm
  rcases entry_assign hm with hm | ⟨rfl, -, hentries⟩
  · exact h g m hm
  refine ⟨hgroup, ?_⟩
  intro k v hv
  rcases hentries k v hv with ⟨rfl, rfl⟩ | ⟨old, hold, hv⟩
  · exact hentry
  · exact (h _ old hold).2 k v hv

/-- What every call keeps holds of the configuration that a sequence of calls builds. -/
theorem setAll_invariant {P : ConfigFile → Prop} (sets : List (StdString × StdString × StdString))
    (hnew : P stdConfigFileCreate)
    (hset : ∀ x ∈ sets, ∀ d, P d → P (stdConfigFileSet d x.1 x.2.1 x.2.2)) : P (setAll sets) := by
  have hgen : ∀ l ⊆ sets, ∀ d, P d →
      P (l.foldl (fun d x => stdConfigFileSet d x.1 x.2.1 x.2.2) d) := by
    intro l
    induction l with
    | nil => exact fun _ d h => h
    | cons x l ih =>
      intro hsub d hd
      obtain ⟨hx, hl⟩ := List.cons_subset.mp hsub
      exact ih hl _ (hset x hx d hd)
  exact hgen sets (List.Subset.refl _) _ hnew

theorem built_setAll (sets : List (StdString × StdString × StdString)) : (setAll sets).Built := by
  apply setAll_invariant
  · intro g m hm
    simp [stdConfigFileCreate] at hm
  · exact fun x _ d hd => hd.set x.1 x.2.1 x.2.2

theorem plain_setAll {sets : List (StdString × StdString × StdString)}
    (h : ∀ x ∈ sets, PlainGroup x.1.cStr ∧ PlainEntry x.2.1.cStr x.2.2.cStr) :
    (setAll sets).Plain := by
  apply setAll_invariant
  · intro g m hm
    simp [stdConfigFileCreate] at hm
  · exact fun x hx d hd => hd.set (h x hx).1 (h x hx).2

/-! ## Trimming -/

theorem trimmed_of_all {s : StdString} (h : s.any isspace = false) : Trimmed s := by
  have hall : ∀ c ∈ s, isspace c = false := by simpa using h
  exact ⟨fun c hc => hall c (List.mem_of_mem_head? hc), fun c hc => hall c (List.mem_of_getLast? hc)⟩

theorem Trimmed.rtrim {s : StdString} (h : Trimmed s) : rtrim s = s := by
  rw [Text.rtrim, List.rdropWhile_eq_self_iff]
  intro hne
  have hlast := h.2 (s.getLast hne) (List.getLast?_eq_some_getLast hne)
  simp [hlast]

theorem Trimmed.trim {s : StdString} (h : Trimmed s) : trim s = s := by
  rw [Text.trim, h.rtrim, ltrim]
  cases s with
  | nil => rfl
  | cons c s =>
    have hc := h.1 c rfl
    rw [List.dropWhile_cons_of_neg (by simp [hc])]

theorem Trimmed.trim_newline {s : StdString} (h : Trimmed s) : Text.trim (s ++ newline) = s := by
  have hr : Text.rtrim (s ++ newline) = Text.rtrim s :=
    List.rdropWhile_concat_pos isspace s 10 (by decide)
  rw [Text.trim, hr]
  exact h.trim

/-! ## Writing -/

/-- The text of a list of groups. -/
def textOf (l : List (StdString × MapOfStrings)) : StdString :=
  l.flatMap fun x => groupLine x.1 ++ x.2.toList.flatMap keyLine

theorem Writer.fwrite_all {takes : Nat → Option Nat} {w : Writer} {buff : StdString}
    (h : (w.fwrite takes buff).2 = true) : (w.fwrite takes buff).1.file = w.file ++ buff := by
  simp only [Writer.fwrite, decide_eq_true_eq] at h ⊢
  rw [h, List.take_length]

theorem Writer.fwrite_none (w : Writer) (buff : StdString) :
    w.fwrite (fun _ => none) buff =
      ({ w with file := w.file ++ buff, calls := w.calls + 1 }, true) := by
  simp [Writer.fwrite]

theorem writeKeys_ok {takes : Nat → Option Nat} {l : List (StdString × StdString)} :
    ∀ {w : Writer}, (writeKeys takes l w).rc = .ok →
      w.rc = .ok ∧ (writeKeys takes l w).file = w.file ++ l.flatMap keyLine := by
  induction l with
  | nil => simp [writeKeys]
  | cons x l ih =>
    intro w h
    rw [writeKeys] at h ⊢
    by_cases hall : (w.fwrite takes (keyLine x)).2 = true
    · simp only [hall, if_true] at h ⊢
      obtain ⟨hrc, hfile⟩ := ih h
      refine ⟨hrc, ?_⟩
      rw [hfile, Writer.fwrite_all hall, List.flatMap_cons, List.append_assoc]
    · simp only [hall, if_false, Bool.false_eq_true] at h
      cases h

theorem writeGroups_ok {takes : Nat → Option Nat} {l : List (StdString × MapOfStrings)} :
    ∀ {w : Writer}, (writeGroups takes l w).rc = .ok →
      w.rc = .ok ∧ (writeGroups takes l w).file = w.file ++ textOf l := by
  induction l with
  | nil => simp [writeGroups, textOf]
  | cons x l ih =>
    intro w h
    rw [writeGroups] at h ⊢
    by_cases hall : (w.fwrite takes (groupLine x.1)).2 = true
    · simp only [hall, if_true] at h ⊢
      obtain ⟨hkeys, hfile⟩ := ih h
      obtain ⟨hrc, hfile'⟩ := writeKeys_ok hkeys
      refine ⟨hrc, ?_⟩
      rw [hfile, hfile', Writer.fwrite_all hall, textOf, textOf, List.flatMap_cons]
      simp only [List.append_assoc]
    · simp only [hall, if_false, Bool.false_eq_true] at h
      cases h

theorem writeKeys_none (l : List (StdString × StdString)) :
    ∀ w : Writer, (writeKeys (fun _ => none) l w).rc = w.rc := by
  induction l with
  | nil => exact fun _ => rfl
  | cons x l ih =>
    intro w
    rw [writeKeys, Writer.fwrite_none]
    exact ih _

theorem writeGroups_none (l : List (StdString × MapOfStrings)) :
    ∀ w : Writer, (writeGroups (fun _ => none) l w).rc = w.rc := by
  induction l with
  | nil => exact fun _ => rfl
  | cons x l ih =>
    intro w
    rw [writeGroups, Writer.fwrite_none]
    exact (ih _).trans (writeKeys_none ..)

/-! ## Reading -/

theorem readLine_line {l : StdString} (h : 10 ∉ l) (rest : StdString) :
    ∀ n, (l ++ newline).length ≤ n → readLine n (l ++ newline ++ rest) = (l ++ newline, rest) := by
  induction l with
  | nil =>
    intro n hn
    obtain ⟨n, rfl⟩ : ∃ k, n = k + 1 := ⟨n - 1, by simp at hn; omega⟩
    simp [readLine]
  | cons c l ih =>
    intro n hn
    obtain ⟨n, rfl⟩ : ∃ k, n = k + 1 := ⟨n - 1, by simp at hn; omega⟩
    rw [List.mem_cons, not_or] at h
    rw [List.cons_append, List.cons_append, readLine, if_neg (Ne.symm h.1),
      ih h.2 n (by simpa using hn)]

theorem fgets_line {l : StdString} (h : 10 ∉ l) (hfits : (l ++ newline).length ≤ BUFF_LEN - 1)
    (rest : StdString) : fgets BUFF_LEN (l ++ newline ++ rest) = some (l ++ newline, rest) := by
  rw [fgets, if_neg (by simp), readLine_line h rest _ hfits]

theorem find_zero (s pat : StdString) : find s pat 0 = indexOf pat s := by
  simp [find]

/-- The line of a group changes the section. -/
theorem loadFileLoop_group {group : StdString} (h : PlainGroup group) (hnul : 0 ∉ group)
    (section_ : StdString) (d : ConfigFile) (rest : StdString) (fuel : Nat) :
    loadFileLoop (fuel + 1) section_ d (groupLine group ++ rest) =
      loadFileLoop fuel group d rest := by
  have hget : fgets BUFF_LEN (groupLine group ++ rest) = some (groupLine group, rest) :=
    fgets_line (l := openS ++ group ++ closeS) (by simp [h.newline]) h.fits rest
  have hcStr : (groupLine group).cStr = groupLine group :=
    cStr_of_not_mem (by simp [groupLine, hnul])
  have hopen : find (groupLine group) openS 0 = some 0 := by
    rw [find_zero, indexOf_eq_zero]
    rfl
  have hclose : find (groupLine group) closeS 0 = some (group.length + 1) := by
    have hnot : 93 ∉ openS ++ group := by simp [h.close]
    have hindex := indexOf_append hnot newline
    have hline : groupLine group = openS ++ group ++ 93 :: newline := by simp [groupLine]
    rw [find_zero, hline, hindex, List.length_append, Nat.add_comm]
    rfl
  have hsection : handleSection (groupLine group) = some group := by
    rw [handleSection, hopen, hclose]
    have hline : groupLine group = openS ++ (group ++ (closeS ++ newline)) := by simp [groupLine]
    rw [hline]
    exact substr_append openS group (closeS ++ newline)
  rw [loadFileLoop, hget]
  dsimp only
  rw [hcStr, if_pos ⟨hopen, by simp [hclose]⟩, hsection]

/-- The line of a key assigns its value. -/
theorem loadFileLoop_key {key value : StdString} (h : PlainEntry key value) (hkey : 0 ∉ key)
    (hvalue : 0 ∉ value) (section_ : StdString) (d : ConfigFile) (rest : StdString) (fuel : Nat) :
    loadFileLoop (fuel + 1) section_ d (keyLine (key, value) ++ rest) =
      loadFileLoop fuel section_ (d.assign section_ key value) rest := by
  have hget : fgets BUFF_LEN (keyLine (key, value) ++ rest) = some (keyLine (key, value), rest) :=
    fgets_line (l := key ++ equals ++ value) (by simp [h.key_newline, h.value_newline]) h.fits rest
  have hcStr : (keyLine (key, value)).cStr = keyLine (key, value) :=
    cStr_of_not_mem (by simp [keyLine, hkey, hvalue])
  have hline : keyLine (key, value) = key ++ 61 :: (value ++ newline) := by simp [keyLine]
  have hopen : find (keyLine (key, value)) openS 0 ≠ some 0 := by
    rw [find_zero, ne_eq, indexOf_eq_zero, hline]
    cases hk : key with
    | nil => simp
    | cons c k =>
      have hc := h.key_open
      rw [hk] at hc
      simpa using hc
  have hequals : find (keyLine (key, value)) equals 0 = some key.length := by
    rw [find_zero, hline, indexOf_append h.key_equals]
  have hfield : handleKeyfield (keyLine (key, value)) section_ d =
      some (d.assign section_ key value) := by
    have hsub : substr (keyLine (key, value)) 0 key.length = some key := by
      rw [hline]
      exact substr_append [] key (61 :: (value ++ newline))
    have hrest : substr (keyLine (key, value)) (key.length + 1) (keyLine (key, value)).length =
        some (value ++ newline) := by
      have hlen : key.length + 1 = (key ++ equals).length := by simp
      have hkl : keyLine (key, value) = (key ++ equals) ++ (value ++ newline) := by
        simp [keyLine]
      rw [hlen, substr, if_pos (by rw [hkl]; simp), hkl, List.drop_left,
        List.take_of_length_le (by simp; omega)]
    rw [handleKeyfield, hequals]
    dsimp only [bind, Option.bind]
    rw [hsub]
    dsimp only
    rw [hrest]
    dsimp only
    rw [h.key_trimmed.trim, h.value_trimmed.trim_newline]
    rfl
  rw [loadFileLoop, hget]
  dsimp only
  rw [hcStr, if_neg fun hsec => hopen hsec.1, if_neg (by simp [hequals]), hfield]

/-- The lines of the keys of a group. -/
theorem loadFileLoop_keys {l : List (StdString × StdString)}
    (h : ∀ x ∈ l, PlainEntry x.1 x.2 ∧ 0 ∉ x.1 ∧ 0 ∉ x.2) (section_ rest : StdString) :
    ∀ (d : ConfigFile) (fuel : Nat), (l.flatMap keyLine ++ rest).length < fuel →
      ∃ fuel', rest.length < fuel' ∧
        loadFileLoop fuel section_ d (l.flatMap keyLine ++ rest) =
          loadFileLoop fuel' section_ (l.foldl (fun d x => d.assign section_ x.1 x.2) d) rest := by
  induction l with
  | nil => exact fun d fuel hfuel => ⟨fuel, hfuel, rfl⟩
  | cons x l ih =>
    intro d fuel hfuel
    obtain ⟨fuel, rfl⟩ : ∃ n, fuel = n + 1 := ⟨fuel - 1, by omega⟩
    obtain ⟨hx, hkey, hvalue⟩ := h x (by simp)
    have hlen : (l.flatMap keyLine ++ rest).length < fuel := by
      simp only [List.flatMap_cons, List.length_append, keyLine, List.length_singleton] at hfuel ⊢
      omega
    obtain ⟨fuel', hfuel', hrun⟩ := ih (fun y hy => h y (List.mem_cons_of_mem _ hy))
      (d.assign section_ x.1 x.2) fuel hlen
    refine ⟨fuel', hfuel', ?_⟩
    rw [List.flatMap_cons, List.append_assoc, loadFileLoop_key hx hkey hvalue, hrun]
    rfl

/-- The assignments of the keys of a group. -/
def ConfigFile.assignGroup (d : ConfigFile) (x : StdString × MapOfStrings) : ConfigFile :=
  x.2.toList.foldl (fun d y => d.assign x.1 y.1 y.2) d

/-- The lines of a list of groups. -/
theorem loadFileLoop_groups {l : List (StdString × MapOfStrings)}
    (h : ∀ x ∈ l, (PlainGroup x.1 ∧ 0 ∉ x.1) ∧
      ∀ y ∈ x.2.toList, PlainEntry y.1 y.2 ∧ 0 ∉ y.1 ∧ 0 ∉ y.2) :
    ∀ (section_ : StdString) (d : ConfigFile) (fuel : Nat), (textOf l).length < fuel →
      loadFileLoop fuel section_ d (textOf l) = .ok (.ok, l.foldl ConfigFile.assignGroup d) := by
  induction l with
  | nil =>
    intro section_ d fuel hfuel
    obtain ⟨fuel, rfl⟩ : ∃ n, fuel = n + 1 := ⟨fuel - 1, by omega⟩
    rfl
  | cons x l ih =>
    intro section_ d fuel hfuel
    obtain ⟨fuel, rfl⟩ : ∃ n, fuel = n + 1 := ⟨fuel - 1, by omega⟩
    obtain ⟨⟨hgroup, hnul⟩, hkeys⟩ := h x (by simp)
    have htext : textOf (x :: l) = groupLine x.1 ++ (x.2.toList.flatMap keyLine ++ textOf l) := by
      rw [textOf, List.flatMap_cons, List.append_assoc]
      rfl
    have hlen : (x.2.toList.flatMap keyLine ++ textOf l).length < fuel := by
      rw [htext, List.length_append] at hfuel
      have hpos : 0 < (groupLine x.1).length := by simp [groupLine]
      omega
    obtain ⟨fuel', hfuel', hrun⟩ := loadFileLoop_keys hkeys x.1 (textOf l) d fuel hlen
    rw [htext, loadFileLoop_group hgroup hnul, hrun,
      ih (fun y hy => h y (List.mem_cons_of_mem _ hy)) _ _ _ hfuel']
    rfl

/-! ## The assignments of all entries -/

theorem assign_insert (d : ConfigFile) (group key value : StdString) (m : MapOfStrings) :
    ConfigFile.assign (d.insert group m) group key value = d.insert group (m.insert key value) :=
  StdMap.alter_insert d group m _ rfl

/-- The keys of a new group. -/
theorem assignGroup_new {d : ConfigFile} {group : StdString} (hnew : d[group]? = none)
    {m : MapOfStrings} (hm : m ≠ ∅) : d.assignGroup (group, m) = d.insert group m := by
  have hfold : ∀ (l : List (StdString × StdString)) (m : MapOfStrings),
      l.foldl (fun d y => ConfigFile.assign d group y.1 y.2) (d.insert group m) =
        d.insert group (l.foldl (fun m y => m.insert y.1 y.2) m) := by
    intro l
    induction l with
    | nil => exact fun _ => rfl
    | cons y l ih =>
      intro m
      rw [List.foldl_cons, assign_insert, ih]
      rfl
  cases hl : m.toList with
  | nil =>
    refine absurd ?_ hm
    have hempty := StdMap.foldl_insert_toList m
    rw [hl] at hempty
    exact hempty.symm
  | cons y l =>
    have hfirst : d.assign group y.1 y.2 =
        d.insert group ((∅ : MapOfStrings).insert y.1 y.2) := StdMap.alter_of_none hnew _ rfl
    have hall := StdMap.foldl_insert_toList m
    rw [hl, List.foldl_cons] at hall
    rw [ConfigFile.assignGroup, hl, List.foldl_cons, hfirst, hfold, hall]

/-- The keys of new groups. -/
theorem foldl_assignGroup {l : List (StdString × MapOfStrings)}
    (hdistinct : l.Pairwise fun a b => a.1 ≠ b.1) (hm : ∀ x ∈ l, x.2 ≠ ∅) :
    ∀ d : ConfigFile, (∀ x ∈ l, d[x.1]? = none) →
      l.foldl ConfigFile.assignGroup d = l.foldl (fun d x => d.insert x.1 x.2) d := by
  induction l with
  | nil => exact fun _ _ => rfl
  | cons x l ih =>
    intro d hnew
    obtain ⟨hx, hl⟩ := List.pairwise_cons.mp hdistinct
    rw [List.foldl_cons, List.foldl_cons,
      assignGroup_new (hnew x (by simp)) (hm x (by simp))]
    refine ih hl (fun y hy => hm y (List.mem_cons_of_mem _ hy)) _ ?_
    intro y hy
    rw [Std.ExtTreeMap.getElem?_insert, if_neg (by simpa using hx y hy)]
    exact hnew y (List.mem_cons_of_mem _ hy)

theorem assign_all {d : ConfigFile} (h : d.Built) :
    d.toList.foldl ConfigFile.assignGroup stdConfigFileCreate = d := by
  have hdistinct : d.toList.Pairwise fun a b => a.1 ≠ b.1 := by
    refine List.Pairwise.imp ?_ d.distinct_keys_toList
    intro a b hab heq
    exact hab (by simp [heq])
  rw [foldl_assignGroup hdistinct ?_ _ ?_]
  · exact StdMap.foldl_insert_toList d
  · intro x hx
    exact (h x.1 x.2 (Std.ExtTreeMap.mem_toList_iff_getElem?_eq_some.mp hx)).2.1
  · intro x _
    simp [stdConfigFileCreate]

/-- A configuration that was built by calls of `std_config_file_set` can be written, and when it
was written the file is read back as the same configuration. -/
theorem config_round_trip (sets : List (StdString × StdString × StdString))
    (hplain : (setAll sets).Plain) :
    (stdConfigFileWrite (fun _ => none) (setAll sets)).1 = .ok ∧
      ∀ takes : Nat → Option Nat, (stdConfigFileWrite takes (setAll sets)).1 = .ok →
        stdConfigFileOpen (some (stdConfigFileWrite takes (setAll sets)).2) =
          .ok (.ok, some (setAll sets)) := by
  have hbuilt := built_setAll sets
  refine ⟨writeGroups_none .., ?_⟩
  intro takes hok
  obtain ⟨-, hfile⟩ := writeGroups_ok hok
  have hfile' : (stdConfigFileWrite takes (setAll sets)).2 = textOf (setAll sets).toList := hfile
  have hlines : ∀ x ∈ (setAll sets).toList, (PlainGroup x.1 ∧ 0 ∉ x.1) ∧
      ∀ y ∈ x.2.toList, PlainEntry y.1 y.2 ∧ 0 ∉ y.1 ∧ 0 ∉ y.2 := by
    intro x hx
    have hget := Std.ExtTreeMap.mem_toList_iff_getElem?_eq_some.mp hx
    obtain ⟨hgroup, hentries⟩ := hplain x.1 x.2 hget
    obtain ⟨hnul, -, hnuls⟩ := hbuilt x.1 x.2 hget
    refine ⟨⟨hgroup, hnul⟩, ?_⟩
    intro y hy
    have hy' := Std.ExtTreeMap.mem_toList_iff_getElem?_eq_some.mp hy
    exact ⟨hentries y.1 y.2 hy', hnuls y.1 y.2 hy'⟩
  rw [hfile', stdConfigFileOpen, loadFile,
    loadFileLoop_groups hlines [] stdConfigFileCreate _ (Nat.lt_succ_self _), exec_bind_ok]
  dsimp only
  rw [assign_all hbuilt, if_pos rfl]
  rfl

/-- The empty group has a key without a value, and the group `g=` the key `a[` with the value
`=]`. -/
def sampleSets : List (StdString × StdString × StdString) :=
  [([], [107], []), ([103, 61], [97, 91], [61, 93])]

theorem config_round_trip_sample : stdConfigFileOpen (some (textOf (setAll sampleSets).toList)) =
    .ok (.ok, some (setAll sampleSets)) := by
  have hplain : (setAll sampleSets).Plain := by
    apply plain_setAll
    simp only [sampleSets, List.forall_mem_cons]
    refine ⟨⟨⟨by decide, by decide, by decide⟩, ⟨by decide, by decide, by decide, ?_, by decide, ?_,
      by decide⟩⟩, ⟨⟨by decide, by decide, by decide⟩, ⟨by decide, by decide, by decide, ?_,
      by decide, ?_, by decide⟩⟩, by simp⟩
    all_goals exact trimmed_of_all (by decide)
  obtain ⟨hok, hopen⟩ := config_round_trip sampleSets hplain
  obtain ⟨-, hfile⟩ := writeGroups_ok hok
  have hread := hopen _ hok
  rwa [show (stdConfigFileWrite (fun _ => none) (setAll sampleSets)).2 = _ from hfile] at hread

end OpxCommonUtils.Text
