import OpxCommonUtils.Misc.Sections
import OpxCommonUtils.Text.Proofs.ConfigFile

/-!
# What the reader makes of a configuration file

A file is read in the pieces that `fgets` cuts from it, and a piece opens a section, makes a
setting or does nothing (`lineEvents`). The reader never fails, and what it builds is what the
events of the pieces say (`stdConfigFileOpen_events`). A line that stays in one piece is read as
what it is, but for a comment with a `=` in it, which makes a setting (`Line.readable_short`). A
document of lines that are read as what they are is read as what it says, and every other line
spoils some document.
-/

namespace OpxCommonUtils.Text

open StdString SectionEvent

/-- What a line does to the reader: a section begins, or a key gets a value. -/
abbrev Event := SectionEvent StdString StdString StdString

/-! ## A line that was read -/

/-- Whether the reader takes a line for one of a section. -/
def IsGroup (data : StdString) : Prop := data.head? = some 91 ∧ 93 ∈ data

instance (data : StdString) : Decidable (IsGroup data) := inferInstanceAs (Decidable (_ ∧ _))

/-- What the reader makes of a line. -/
def lineEvents (data : StdString) : List Event :=
  if IsGroup data then [.enter ((data.drop 1).takeWhile (· ≠ 93))]
  else if 61 ∈ data then
    [.set (trim (data.takeWhile (· ≠ 61))) (trim ((data.dropWhile (· ≠ 61)).drop 1))]
  else []

/-- The settings in the order in which they are made. -/
def ConfigFile.assignAll (d : ConfigFile) (l : List ((StdString × StdString) × StdString)) :
    ConfigFile :=
  l.foldl (fun d x => d.assign x.1.1 x.1.2 x.2) d

theorem takeWhile_ne {c : UInt8} {a : StdString} (h : c ∉ a) (b : StdString) :
    (a ++ c :: b).takeWhile (· ≠ c) = a := by
  induction a with
  | nil => simp
  | cons x a ih =>
    rw [List.mem_cons, not_or] at h
    have hx : x ≠ c := Ne.symm h.1
    simp only [List.cons_append, List.takeWhile_cons, hx, ne_eq, not_false_eq_true, decide_true,
      if_true]
    exact congrArg (x :: ·) (ih h.2)

theorem dropWhile_ne {c : UInt8} {a : StdString} (h : c ∉ a) (b : StdString) :
    (a ++ c :: b).dropWhile (· ≠ c) = c :: b := by
  induction a with
  | nil => simp
  | cons x a ih =>
    rw [List.mem_cons, not_or] at h
    have hx : x ≠ c := Ne.symm h.1
    simp only [List.cons_append, List.dropWhile_cons, hx, ne_eq, not_false_eq_true, decide_true,
      if_true]
    exact ih h.2

theorem isGroup_cons {name : StdString} (rest : StdString) :
    IsGroup (91 :: (name ++ 93 :: rest)) := ⟨rfl, by simp⟩

theorem lineEvents_group {name : StdString} (h : 93 ∉ name) (rest : StdString) :
    lineEvents (91 :: (name ++ 93 :: rest)) = [.enter name] := by
  rw [lineEvents, if_pos (isGroup_cons rest), List.drop_succ_cons, List.drop_zero, takeWhile_ne h]

theorem lineEvents_entry {key value : StdString} (h : 61 ∉ key)
    (hgroup : ¬ IsGroup (key ++ 61 :: value)) :
    lineEvents (key ++ 61 :: value) = [.set (trim key) (trim value)] := by
  rw [lineEvents, if_neg hgroup, if_pos (by simp), takeWhile_ne h, dropWhile_ne h]
  rfl

theorem lineEvents_plain {data : StdString} (h : 61 ∉ data) (hgroup : ¬ IsGroup data) :
    lineEvents data = [] := by
  rw [lineEvents, if_neg hgroup, if_neg h]

/-- A line is one of a section, or one of a key, or neither. -/
theorem line_cases (data : StdString) :
    (∃ name rest, data = 91 :: (name ++ 93 :: rest) ∧ 93 ∉ name) ∨
      (¬ IsGroup data ∧ ∃ key value, data = key ++ 61 :: value ∧ 61 ∉ key) ∨
      (¬ IsGroup data ∧ 61 ∉ data) := by
  by_cases hgroup : IsGroup data
  · left
    obtain ⟨hhead, hclose⟩ := hgroup
    obtain ⟨rest, rfl⟩ := List.head?_eq_some_iff.mp hhead
    have hmem : 93 ∈ rest := by simpa using hclose
    obtain ⟨name, tail, rfl, hname⟩ := List.eq_append_cons_of_mem hmem
    exact ⟨name, tail, rfl, hname⟩
  · right
    by_cases hequals : 61 ∈ data
    · obtain ⟨key, value, rfl, hkey⟩ := List.eq_append_cons_of_mem hequals
      exact .inl ⟨hgroup, key, value, rfl, hkey⟩
    · exact .inr ⟨hgroup, hequals⟩

/-- The test of `load_file` for a section. -/
theorem isGroup_iff (data : StdString) :
    (find data openS 0 = some 0 ∧ find data closeS 0 ≠ none) ↔ IsGroup data := by
  rw [find_zero, find_zero, indexOf_eq_zero, ← Option.isSome_iff_ne_none, indexOf_isSome]
  exact Iff.rfl

theorem handleSection_group {name : StdString} (h : 93 ∉ name) (rest : StdString) :
    handleSection (91 :: (name ++ 93 :: rest)) = some name := by
  have hopen : find (91 :: (name ++ 93 :: rest)) openS 0 = some 0 := by
    rw [find_zero, indexOf_eq_zero]
    rfl
  have hclose : find (91 :: (name ++ 93 :: rest)) closeS 0 = some (name.length + 1) := by
    have hnot : 93 ∉ 91 :: name := by simp [h]
    rw [find_zero]
    exact indexOf_append hnot rest
  rw [handleSection, hopen, hclose]
  exact substr_append openS name (93 :: rest)

theorem handleKeyfield_entry {key : StdString} (h : 61 ∉ key) (value section_ : StdString)
    (d : ConfigFile) :
    handleKeyfield (key ++ 61 :: value) section_ d =
      some (d.assign section_ (trim key) (trim value)) := by
  have hfind : find (key ++ 61 :: value) equals 0 = some key.length := by
    rw [find_zero, indexOf_append h]
  have hkey : substr (key ++ 61 :: value) 0 key.length = some key :=
    substr_append [] key (61 :: value)
  have hvalue : substr (key ++ 61 :: value) (key.length + 1) (key ++ 61 :: value).length =
      some value := by
    have hsplit : key ++ 61 :: value = (key ++ equals) ++ value := by simp
    have hlen : key.length + 1 = (key ++ equals).length := by simp
    rw [hlen, substr, if_pos (by rw [hsplit]; simp), hsplit, List.drop_left,
      List.take_of_length_le (by simp; omega)]
  rw [handleKeyfield, hfind]
  dsimp only [bind, Option.bind]
  rw [hkey]
  dsimp only
  rw [hvalue]
  rfl

/-- The reader does what the events of the line say, and goes on. -/
theorem loadFileLoop_line {file line rest : StdString}
    (hget : fgets BUFF_LEN file = some (line, rest)) (section_ : StdString) (d : ConfigFile)
    (fuel : Nat) :
    loadFileLoop (fuel + 1) section_ d file =
      loadFileLoop fuel (sectionAfter section_ (lineEvents line.cStr))
        (d.assignAll (settings section_ (lineEvents line.cStr))) rest := by
  rw [loadFileLoop, hget]
  dsimp only
  simp only [isGroup_iff]
  rcases line_cases line.cStr with ⟨name, tail, hline, hname⟩ | ⟨hgroup, key, value, hline, hkey⟩ |
    ⟨hgroup, hequals⟩
  · rw [hline, if_pos (isGroup_cons tail), handleSection_group hname, lineEvents_group hname]
    rfl
  · rw [hline] at hgroup
    have hfind : find (key ++ 61 :: value) equals 0 ≠ none := by
      rw [find_zero, indexOf_append hkey]
      simp
    rw [hline, if_neg hgroup, if_neg hfind, handleKeyfield_entry hkey,
      lineEvents_entry hkey hgroup]
    rfl
  · have hfind : find line.cStr equals 0 = none := by
      rw [find_zero, indexOf_not_mem hequals]
    rw [if_neg hgroup, if_pos hfind, lineEvents_plain hequals hgroup]
    rfl

/-! ## The pieces of a file -/

theorem readLine_append (n : Nat) (file : StdString) :
    (readLine n file).1 ++ (readLine n file).2 = file := by
  induction n generalizing file with
  | zero => cases file <;> rfl
  | succ n ih =>
    cases file with
    | nil => rfl
    | cons c file =>
      rw [readLine]
      split
      · rfl
      · exact congrArg (c :: ·) (ih file)

/-- `fgets` leaves less of a file than there was. -/
theorem fgets_lt {file line rest : StdString} (h : fgets BUFF_LEN file = some (line, rest)) :
    rest.length < file.length := by
  rw [fgets] at h
  split at h
  · cases h
  · rename_i hne
    obtain ⟨c, file, rfl⟩ := List.exists_cons_of_ne_nil hne
    have hstep : readLine (BUFF_LEN - 1) (c :: file) =
        if c = 10 then ([c], file)
        else (c :: (readLine (BUFF_LEN - 2) file).1, (readLine (BUFF_LEN - 2) file).2) := rfl
    rw [hstep] at h
    split at h
    · cases h
      exact Nat.lt_succ_self _
    · cases h
      have hlen := congrArg List.length (readLine_append (BUFF_LEN - 2) file)
      rw [List.length_append] at hlen
      rw [List.length_cons]
      omega

/-- The pieces that `fgets` cuts from a file. -/
def pieces (file : StdString) : List StdString :=
  match h : fgets BUFF_LEN file with
  | none => []
  | some (line, rest) => line :: pieces rest
termination_by file.length
decreasing_by exact fgets_lt h

theorem pieces_nil : pieces [] = [] := by
  rw [pieces]
  rfl

theorem pieces_cons {file line rest : StdString} (h : fgets BUFF_LEN file = some (line, rest)) :
    pieces file = line :: pieces rest := by
  rw [pieces]
  split
  · rename_i hnone
    rw [h] at hnone
    cases hnone
  · rename_i hsome
    rw [h] at hsome
    cases hsome
    rfl

/-- The events of the pieces of a file. -/
def fileEvents (file : StdString) : List Event :=
  (pieces file).flatMap fun line => lineEvents line.cStr

theorem fileEvents_nil : fileEvents [] = [] := by
  rw [fileEvents, pieces_nil, List.flatMap_nil]

theorem fileEvents_cons {file line rest : StdString}
    (h : fgets BUFF_LEN file = some (line, rest)) :
    fileEvents file = lineEvents line.cStr ++ fileEvents rest := by
  rw [fileEvents, pieces_cons h, List.flatMap_cons]
  rfl

theorem fgets_eq_none {file : StdString} (h : fgets BUFF_LEN file = none) : file = [] := by
  rw [fgets] at h
  split at h
  · assumption
  · cases h

/-- The reader makes the settings of all pieces. -/
theorem loadFileLoop_events :
    ∀ (fuel : Nat) (section_ : StdString) (d : ConfigFile) (file : StdString),
      file.length < fuel →
        loadFileLoop fuel section_ d file =
          .ok (.ok, d.assignAll (settings section_ (fileEvents file))) := by
  intro fuel
  induction fuel with
  | zero => intro section_ d file h; omega
  | succ fuel ih =>
    intro section_ d file h
    cases hget : fgets BUFF_LEN file with
    | none =>
      rw [fgets_eq_none hget, fileEvents_nil]
      rfl
    | some next =>
      obtain ⟨line, rest⟩ := next
      have hlt := fgets_lt hget
      rw [loadFileLoop_line hget, ih _ _ _ (by omega), fileEvents_cons hget, settings_append]
      simp [ConfigFile.assignAll]

/-- Opening a file that exists succeeds. -/
theorem stdConfigFileOpen_events (file : StdString) :
    stdConfigFileOpen (some file) =
      .ok (.ok, some (stdConfigFileCreate.assignAll (settings [] (fileEvents file)))) := by
  rw [stdConfigFileOpen, loadFile]
  dsimp only
  rw [loadFileLoop_events _ _ _ _ (Nat.lt_succ_self _)]
  rfl

/-! ## What a configuration holds -/

/-- The value of a key of a group. -/
def ConfigFile.valueOf (d : ConfigFile) (group key : StdString) : Option StdString :=
  d[group]?.bind fun m => m[key]?

theorem valueOf_assign (d : ConfigFile) (group key value g k : StdString) :
    (d.assign group key value).valueOf g k =
      if (group, key) = (g, k) then some value else d.valueOf g k := by
  rw [ConfigFile.valueOf, ConfigFile.assign, Std.ExtTreeMap.getElem?_alter]
  by_cases hg : group = g
  · subst hg
    rw [if_pos (by simp), Option.bind_some, Std.ExtTreeMap.getElem?_insert]
    by_cases hk : key = k
    · subst hk
      simp
    · rw [if_neg (by simpa using hk), if_neg (by simpa using hk), ConfigFile.valueOf]
      cases d[group]? with
      | none => simp
      | some m => rfl
  · rw [if_neg (by simpa using hg), if_neg (by simp [hg])]
    rfl

/-- The assignments leave the last values. -/
theorem valueOf_assignAll (d : ConfigFile) (l : List ((StdString × StdString) × StdString))
    (g k : StdString) :
    (d.assignAll l).valueOf g k = (lastValue l (g, k)).or (d.valueOf g k) := by
  induction l generalizing d with
  | nil => rfl
  | cons a l ih =>
    have hstep : d.assignAll (a :: l) = (d.assign a.1.1 a.1.2 a.2).assignAll l := rfl
    rw [hstep, ih, valueOf_assign, lastValue, Option.or_assoc]
    congr 1
    split <;> rfl

/-! ## Lines -/

theorem trim_concat_newline (s : StdString) : trim (s ++ newline) = trim s := by
  have hright : rtrim (s ++ newline) = rtrim s :=
    List.rdropWhile_concat_pos isspace s 10 (by decide)
  rw [trim, trim, hright]

/-- The newline at its end changes nothing about a line. -/
theorem lineEvents_newline {l : StdString} : lineEvents (l ++ newline) = lineEvents l := by
  have hgroup : IsGroup (l ++ newline) ↔ IsGroup l := by
    cases l with
    | nil => simp [IsGroup]
    | cons c l => simp [IsGroup]
  rcases line_cases l with ⟨name, tail, rfl, hname⟩ | ⟨hno, key, value, rfl, hkey⟩ | ⟨hno, hequals⟩
  · rw [lineEvents_group hname]
    have hline : 91 :: (name ++ 93 :: tail) ++ newline =
        91 :: (name ++ 93 :: (tail ++ newline)) := by simp
    rw [hline, lineEvents_group hname]
  · rw [lineEvents_entry hkey hno]
    have hline : key ++ 61 :: value ++ newline = key ++ 61 :: (value ++ newline) := by simp
    rw [← hgroup, hline] at hno
    rw [hline, lineEvents_entry hkey hno, trim_concat_newline]
  · rw [lineEvents_plain hequals hno]
    exact lineEvents_plain (by simpa using hequals) (hgroup.not.mpr hno)

theorem readLine_long {l : StdString} (h : 10 ∉ l) (rest : StdString) :
    ∀ n ≤ l.length, readLine n (l ++ rest) = (l.take n, l.drop n ++ rest) := by
  induction l with
  | nil =>
    intro n hn
    obtain rfl : n = 0 := Nat.le_zero.mp hn
    cases rest <;> rfl
  | cons c l ih =>
    intro n hn
    cases n with
    | zero => rfl
    | succ n =>
      rw [List.mem_cons, not_or] at h
      rw [List.cons_append, readLine, if_neg (Ne.symm h.1), ih h.2 n (by simpa using hn)]
      rfl

/-- A line too long for the buffer is cut. -/
theorem fgets_long {l : StdString} (h : 10 ∉ l) (hlong : BUFF_LEN - 1 ≤ l.length)
    (rest : StdString) :
    fgets BUFF_LEN (l ++ rest) =
      some (l.take (BUFF_LEN - 1), l.drop (BUFF_LEN - 1) ++ rest) := by
  have hne : l ++ rest ≠ [] := by
    intro hnil
    rw [(List.append_eq_nil_iff.mp hnil).1] at hlong
    exact absurd hlong (by decide)
  rw [fgets, if_neg hne, readLine_long h rest _ hlong]

theorem readLine_last {l : StdString} (h : 10 ∉ l) :
    ∀ n, l.length ≤ n → readLine n l = (l, []) := by
  induction l with
  | nil => intro n _; cases n <;> rfl
  | cons c l ih =>
    intro n hn
    obtain ⟨n, rfl⟩ : ∃ k, n = k + 1 := ⟨n - 1, by simp at hn; omega⟩
    rw [List.mem_cons, not_or] at h
    rw [readLine, if_neg (Ne.symm h.1), ih h.2 n (by simpa using hn)]

/-- The last line of a file fits into the buffer or is cut. -/
theorem fileEvents_last {l : StdString} (h : 10 ∉ l) (hnul : 0 ∉ l)
    (hshort : l.length ≤ BUFF_LEN - 1) : fileEvents l = lineEvents l := by
  by_cases hl : l = []
  · subst hl
    rw [fileEvents_nil]
    rfl
  · have hget : fgets BUFF_LEN l = some (l, []) := by
      rw [fgets, if_neg hl, readLine_last h _ hshort]
    rw [fileEvents_cons hget, fileEvents_nil, List.append_nil, cStr_of_not_mem hnul]

/-- A line is read apart from the lines behind it. -/
theorem fileEvents_line {l : StdString} (h : 10 ∉ l) (hnul : 0 ∉ l) (rest : StdString) :
    fileEvents (l ++ newline ++ rest) = fileEvents l ++ fileEvents rest := by
  by_cases hshort : l.length < BUFF_LEN - 1
  · have hget := fgets_line h (by rw [List.length_append]; exact hshort) rest
    have hcStr : (l ++ newline).cStr = l ++ newline := cStr_of_not_mem (by simp [hnul])
    rw [fileEvents_cons hget, hcStr, lineEvents_newline, fileEvents_last h hnul hshort.le]
  · have hlong : BUFF_LEN - 1 ≤ l.length := Nat.not_lt.mp hshort
    have hcut : fgets BUFF_LEN l = some (l.take (BUFF_LEN - 1), l.drop (BUFF_LEN - 1)) := by
      have hcut' := fgets_long h hlong []
      rwa [List.append_nil, List.append_nil] at hcut'
    have hget : fgets BUFF_LEN (l ++ newline ++ rest) =
        some (l.take (BUFF_LEN - 1), l.drop (BUFF_LEN - 1) ++ newline ++ rest) := by
      rw [List.append_assoc, fgets_long h hlong, List.append_assoc]
    have hdrop : 10 ∉ l.drop (BUFF_LEN - 1) := fun hmem => h (List.mem_of_mem_drop hmem)
    have hdropNul : 0 ∉ l.drop (BUFF_LEN - 1) := fun hmem => hnul (List.mem_of_mem_drop hmem)
    rw [fileEvents_cons hget, fileEvents_cons hcut, fileEvents_line hdrop hdropNul rest,
      List.append_assoc]
termination_by l.length
decreasing_by
  rw [List.length_drop]
  have hbuff : 0 < BUFF_LEN - 1 := by decide
  omega

/-! ## Documents -/

/-- A line of a configuration file (`std_config_file.h:38-65`). -/
inductive Line where
  | comment (s : StdString)
  | blank (s : StdString)
  | group (name rest : StdString)
  | entry (key value : StdString)

/-- The characters of a line. -/
def Line.text : Line → StdString
  | .comment s => 35 :: s
  | .blank s => s
  | .group name rest => 91 :: (name ++ 93 :: rest)
  | .entry key value => key ++ 61 :: value

/-- What a line is for. -/
def Line.events : Line → List Event
  | .comment _ => []
  | .blank _ => []
  | .group name _ => [.enter name]
  | .entry key value => [.set (trim key) (trim value)]

/-- The lines of a file: a group ends at the first `]`, and a key at the first `=`; a line of a key
is not a comment and not a line of a group. -/
structure Line.Valid (l : Line) : Prop where
  newline : 10 ∉ l.text
  nul : 0 ∉ l.text
  blank : ∀ s, l = .blank s → s.all isspace = true
  group : ∀ name rest, l = .group name rest → 93 ∉ name
  entry : ∀ key value, l = .entry key value →
    61 ∉ key ∧ l.text.head? ≠ some 35 ∧ ¬ IsGroup l.text

/-- A line whose pieces the reader takes together for what the line is. -/
def Line.Readable (l : Line) : Prop := Agree (fileEvents l.text) l.events

/-- The text of lines, the last of which may have no newline. -/
def documentText (lines : List Line) (last : Option Line) : StdString :=
  lines.flatMap (fun l => l.text ++ newline) ++ last.toList.flatMap Line.text

/-- What lines say: the values that the keys of the groups have at the end. -/
def documentValue (lines : List Line) (group key : StdString) : Option StdString :=
  lastValue (settings [] (lines.flatMap Line.events)) (group, key)

/-- The file is opened as the configuration that its lines say. -/
def Documented (lines : List Line) (last : Option Line) : Prop :=
  ∃ d, stdConfigFileOpen (some (documentText lines last)) = .ok (.ok, some d) ∧
    (∀ group key, d.valueOf group key = documentValue (lines ++ last.toList) group key) ∧
    ∀ group key, stdConfigFileGet d group key =
      documentValue (lines ++ last.toList) group.cStr key.cStr

theorem fileEvents_document {lines : List Line} {last : Option Line}
    (h : ∀ l ∈ lines ++ last.toList, l.Valid) :
    fileEvents (documentText lines last) =
      (lines ++ last.toList).flatMap fun l => fileEvents l.text := by
  induction lines with
  | nil =>
    cases last with
    | none => exact fileEvents_nil
    | some l => simp [documentText]
  | cons l lines ih =>
    have hl := h l (by simp)
    have htext : documentText (l :: lines) last = l.text ++ newline ++ documentText lines last := by
      simp [documentText]
    rw [htext, fileEvents_line hl.newline hl.nul,
      ih fun l' hl' => h l' (List.mem_cons_of_mem l hl')]
    rfl

/-! ## Values without NUL -/

theorem mem_trim {c : UInt8} {s : StdString} (h : c ∈ trim s) : c ∈ s := by
  have hright : c ∈ rtrim s := List.dropWhile_subset isspace h
  exact (List.rdropWhile_prefix isspace s).subset hright

/-- The reader makes no value with a NUL of a line without one. -/
theorem lineEvents_nul {data key value : StdString} (h : 0 ∉ data)
    (hset : set key value ∈ lineEvents data) : 0 ∉ value := by
  rw [lineEvents] at hset
  split at hset
  · simp at hset
  · split at hset
    · rw [List.mem_singleton] at hset
      injection hset with _ hvalue
      subst hvalue
      intro hnul
      exact h (List.dropWhile_subset _ (List.mem_of_mem_drop (mem_trim hnul)))
    · cases hset

theorem fileEvents_nul {file key value : StdString} (hset : set key value ∈ fileEvents file) :
    0 ∉ value := by
  obtain ⟨line, -, hline⟩ := List.mem_flatMap.mp hset
  exact lineEvents_nul (zero_not_mem_cStr line) hline

/-- `std_config_file_get` finds the value of a key whole. -/
theorem stdConfigFileGet_eq {d : ConfigFile}
    (h : ∀ group key value, d.valueOf group key = some value → 0 ∉ value) (group key : StdString) :
    stdConfigFileGet d group key = d.valueOf group.cStr key.cStr := by
  have hvalue := h group.cStr key.cStr
  rw [ConfigFile.valueOf] at hvalue ⊢
  rw [stdConfigFileGet]
  cases hm : d[group.cStr]? with
  | none => rfl
  | some m =>
    rw [hm, Option.bind_some] at hvalue
    rw [Option.bind_some, Option.bind_some]
    cases hv : m[key.cStr]? with
    | none => rfl
    | some value => rw [Option.map_some, cStr_of_not_mem (hvalue value hv)]

theorem valueOf_create (group key : StdString) : stdConfigFileCreate.valueOf group key = none := by
  simp [ConfigFile.valueOf, stdConfigFileCreate]

/-- A file is opened as the configuration that the events of its pieces say. -/
theorem open_valueOf (file : StdString) :
    ∃ d, stdConfigFileOpen (some file) = .ok (.ok, some d) ∧
      (∀ group key, d.valueOf group key = lastValue (settings [] (fileEvents file)) (group, key)) ∧
      ∀ group key, stdConfigFileGet d group key = d.valueOf group.cStr key.cStr := by
  refine ⟨_, stdConfigFileOpen_events file, ?_, ?_⟩
  · intro group key
    rw [valueOf_assignAll, valueOf_create, Option.or_none]
  · apply stdConfigFileGet_eq
    intro group key value hvalue
    rw [valueOf_assignAll, valueOf_create, Option.or_none] at hvalue
    exact fileEvents_nul (mem_settings (mem_of_lastValue hvalue))

/-- The file says what its lines say exactly when the events of its pieces do. -/
theorem documented_iff {lines : List Line} {last : Option Line}
    (h : ∀ l ∈ lines ++ last.toList, l.Valid) :
    Documented lines last ↔ ∀ group key,
      lastValue (settings [] ((lines ++ last.toList).flatMap fun l => fileEvents l.text))
        (group, key) = documentValue (lines ++ last.toList) group key := by
  obtain ⟨d, hopen, hvalue, hget⟩ := open_valueOf (documentText lines last)
  rw [fileEvents_document h] at hvalue
  constructor
  · intro hdoc group key
    obtain ⟨d', hopen', hvalue', -⟩ := hdoc
    rw [hopen] at hopen'
    obtain rfl : d = d' := by
      injection hopen' with hopen'
      injection hopen' with _ hopen'
      injection hopen'
    rw [← hvalue, hvalue']
  · intro hsay
    have hsame : ∀ group key, d.valueOf group key =
        documentValue (lines ++ last.toList) group key := by
      intro group key
      rw [hvalue, hsay]
    refine ⟨d, hopen, hsame, ?_⟩
    intro group key
    rw [hget, hsame]

/-! ## Lines that are read as what they are -/

theorem not_agree_set (key value : StdString) : ¬ Agree ([.set key value] : List Event) [] := by
  intro h
  have hvalue := (h []).2 ([], key)
  simp [settings, lastValue] at hvalue

/-- What the reader makes of a line of each kind. -/
theorem Line.lineEvents_text {l : Line} (h : l.Valid) (hcomment : ∀ s, l = .comment s → 61 ∉ s) :
    lineEvents l.text = l.events := by
  cases l with
  | comment s =>
    have hequals : 61 ∉ (Line.comment s).text := by simpa [Line.text] using hcomment s rfl
    exact lineEvents_plain hequals (by simp [IsGroup, Line.text])
  | blank s =>
    have hspace : ∀ c ∈ s, isspace c = true := by simpa using h.blank s rfl
    have hequals : 61 ∉ s := fun hmem => absurd (hspace 61 hmem) (by decide)
    have hclose : 93 ∉ s := fun hmem => absurd (hspace 93 hmem) (by decide)
    exact lineEvents_plain hequals fun hgroup => hclose hgroup.2
  | group name rest => exact lineEvents_group (h.group name rest rfl) rest
  | entry key value =>
    obtain ⟨hkey, -, hgroup⟩ := h.entry key value rfl
    exact lineEvents_entry hkey hgroup

/-- A line that stays in one piece is read as what it is, unless it is a comment with a `=`. -/
theorem Line.readable_short {l : Line} (h : l.Valid) (hshort : l.text.length < BUFF_LEN) :
    l.Readable ↔ ∀ s, l = .comment s → 61 ∉ s := by
  rw [Line.Readable, fileEvents_last h.newline h.nul (Nat.le_pred_of_lt hshort)]
  constructor
  · intro hagree s hs hequals
    subst hs
    obtain ⟨key, value, rfl, hkey⟩ := List.eq_append_cons_of_mem hequals
    have hread : lineEvents (Line.comment (key ++ 61 :: value)).text =
        [.set (trim (35 :: key)) (trim value)] :=
      @lineEvents_entry (35 :: key) value (by simp [hkey]) (by simp [IsGroup])
    rw [hread] at hagree
    exact not_agree_set _ _ hagree
  · intro hcomment
    rw [Line.lineEvents_text h hcomment]
    exact Agree.refl _

/-- A line only opens a section or only makes a setting. -/
theorem Line.events_shape (l : Line) : opened l.events = none ∨ sets l.events = [] := by
  cases l with
  | comment s => exact .inl rfl
  | blank s => exact .inl rfl
  | group name rest => exact .inr rfl
  | entry key value => exact .inl rfl

/-- A line that is read as what it is in one piece. -/
def Line.Plain (l : Line) : Prop := l.Valid ∧ fileEvents l.text = l.events

theorem Line.Plain.readable {l : Line} (h : l.Plain) : l.Readable := by
  rw [Line.Readable, h.2]
  exact Agree.refl _

theorem Line.Valid.plain {l : Line} (h : l.Valid) (hshort : l.text.length < BUFF_LEN)
    (hcomment : ∀ s, l = .comment s → 61 ∉ s) : l.Plain := by
  refine ⟨h, ?_⟩
  rw [fileEvents_last h.newline h.nul (Nat.le_pred_of_lt hshort), Line.lineEvents_text h hcomment]

/-- The line of a group with a name of one letter. -/
theorem plain_group {c : UInt8} (hc : c = 97 ∨ c = 98) : (Line.group [c] []).Plain := by
  have hvalid : (Line.group [c] []).Valid := by
    rcases hc with rfl | rfl
    all_goals
      refine ⟨by simp [Line.text], by simp [Line.text], by simp, ?_, by simp⟩
      intro name rest heq
      cases heq
      simp
  exact hvalid.plain (by simp [Line.text, BUFF_LEN]) (by simp)

/-- The line of a key and a value of one character. -/
theorem plain_entry {c : UInt8} (hc : c = 49 ∨ c = 50) : (Line.entry [107] [c]).Plain := by
  have hvalid : (Line.entry [107] [c]).Valid := by
    rcases hc with rfl | rfl
    all_goals
      refine ⟨by simp [Line.text], by simp [Line.text], by simp, by simp, ?_⟩
      intro key value heq
      cases heq
      simp [Line.text, IsGroup]
  exact hvalid.plain (by simp [Line.text, BUFF_LEN]) (by simp)

/-- A document of lines that are read as what they are is read as what it says. -/
theorem documented_of_readable {lines : List Line} {last : Option Line}
    (hvalid : ∀ l ∈ lines ++ last.toList, l.Valid)
    (hread : ∀ l ∈ lines ++ last.toList, l.Readable) : Documented lines last := by
  rw [documented_iff hvalid]
  intro group key
  exact (Agree.flatMap hread []).2 (group, key)

/-- Any other line spoils some document of lines that are read as what they are. -/
theorem exists_not_documented {l : Line} (hvalid : l.Valid) (hread : ¬ l.Readable) :
    ∃ before after, (∀ l' ∈ before ++ after, l'.Valid ∧ l'.Readable) ∧
      ¬ Documented (before ++ l :: after) none := by
  obtain ⟨es, fs, hes, hfs, x, hx⟩ := exists_context l.events_shape hread []
    (show ([97] : StdString) ≠ [98] by simp) ([107] : StdString)
    (show ([49] : StdString) ≠ [50] by simp)
  have hbefore : ∃ before : List Line, (∀ l' ∈ before, l'.Plain) ∧
      before.flatMap Line.events = es := by
    rcases hes with rfl | rfl | rfl
    · exact ⟨[], by simp, rfl⟩
    · exact ⟨[.group [97] []], by simp [plain_group], rfl⟩
    · exact ⟨[.group [98] []], by simp [plain_group], rfl⟩
  have hafter : ∃ after : List Line, (∀ l' ∈ after, l'.Plain) ∧
      after.flatMap Line.events = fs := by
    rcases hfs with rfl | rfl | rfl
    · exact ⟨[], by simp, rfl⟩
    · exact ⟨[.entry [107] [49]], by simp [plain_entry], rfl⟩
    · exact ⟨[.entry [107] [50]], by simp [plain_entry], rfl⟩
  obtain ⟨before, hbeforePlain, rfl⟩ := hbefore
  obtain ⟨after, hafterPlain, rfl⟩ := hafter
  have hplain : ∀ l' ∈ before ++ after, l'.Plain := by
    intro l' hl'
    exact (List.mem_append.mp hl').elim (hbeforePlain l') (hafterPlain l')
  refine ⟨before, after, fun l' hl' => ⟨(hplain l' hl').1, (hplain l' hl').readable⟩, ?_⟩
  have hlines : ∀ l' ∈ (before ++ l :: after) ++ (none : Option Line).toList, l'.Valid := by
    intro l' hl'
    rw [Option.toList_none, List.append_nil, List.mem_append, List.mem_cons] at hl'
    rcases hl' with hl' | rfl | hl'
    · exact (hbeforePlain l' hl').1
    · exact hvalid
    · exact (hafterPlain l' hl').1
  rw [documented_iff hlines]
  intro hsay
  have hpieces : ∀ {ls : List Line}, (∀ l' ∈ ls, l'.Plain) →
      ls.flatMap (fun l' => fileEvents l'.text) = ls.flatMap Line.events := by
    intro ls hls
    exact List.flatMap_congr fun l' hl' => (hls l' hl').2
  have hdiff := hsay x.1 x.2
  rw [documentValue, Option.toList_none, List.append_nil, List.flatMap_append, List.flatMap_cons,
    List.flatMap_append, List.flatMap_cons, hpieces hbeforePlain, hpieces hafterPlain] at hdiff
  exact hx hdiff

/-- When a configuration file is read as the format says: a document of readable lines is opened as
the configuration that it says, and lines are readable exactly when every document of them and of
readable lines is. Of the lines that fit into the buffer only the comments with a `=` are not. -/
theorem stdConfigFileOpen_documents {lines : List Line} {last : Option Line}
    (hvalid : ∀ l ∈ lines ++ last.toList, l.Valid) :
    ((∀ l ∈ lines ++ last.toList, l.Readable) → Documented lines last) ∧
    ((∀ l ∈ lines ++ last.toList, l.Readable) ↔
      ∀ document : List Line,
        (∀ l ∈ document, l.Valid ∧ (l ∈ lines ++ last.toList ∨ l.Readable)) →
          Documented document none) ∧
    ∀ l ∈ lines ++ last.toList, l.text.length < BUFF_LEN →
      (l.Readable ↔ ∀ s, l = .comment s → 61 ∉ s) := by
  refine ⟨documented_of_readable hvalid, ?_, fun l hl => Line.readable_short (hvalid l hl)⟩
  constructor
  · intro hread document hdocument
    have hmem : document ++ (none : Option Line).toList = document := List.append_nil document
    apply documented_of_readable
    · rw [hmem]
      exact fun l hl => (hdocument l hl).1
    · rw [hmem]
      exact fun l hl => (hdocument l hl).2.elim (hread l) id
  · intro hall l hl
    by_contra hread
    obtain ⟨before, after, hothers, hnot⟩ := exists_not_documented (hvalid l hl) hread
    apply hnot
    apply hall
    intro l' hl'
    rw [List.mem_append, List.mem_cons] at hl'
    rcases hl' with hl' | rfl | hl'
    · have hother := hothers l' (List.mem_append_left after hl')
      exact ⟨hother.1, .inr hother.2⟩
    · exact ⟨hvalid l' hl, .inl hl⟩
    · have hother := hothers l' (List.mem_append_right before hl')
      exact ⟨hother.1, .inr hother.2⟩

/-- `[a]` and `k=1`, without a newline at the end. -/
theorem stdConfigFileOpen_documents_sample :
    ((∀ l ∈ [Line.group [97] []] ++ (some (Line.entry [107] [49])).toList, l.Readable) →
      Documented [.group [97] []] (some (.entry [107] [49]))) ∧
    ((∀ l ∈ [Line.group [97] []] ++ (some (Line.entry [107] [49])).toList, l.Readable) ↔
      ∀ document : List Line,
        (∀ l ∈ document, l.Valid ∧
          (l ∈ [Line.group [97] []] ++ (some (Line.entry [107] [49])).toList ∨ l.Readable)) →
          Documented document none) ∧
    ∀ l ∈ [Line.group [97] []] ++ (some (Line.entry [107] [49])).toList,
      l.text.length < BUFF_LEN → (l.Readable ↔ ∀ s, l = .comment s → 61 ∉ s) :=
  stdConfigFileOpen_documents (by simp [(plain_group (.inl rfl)).1, (plain_entry (.inl rfl)).1])

theorem not_documented_single {l : Line} (hvalid : l.Valid) (group key : StdString)
    (h : lastValue (settings [] (fileEvents l.text)) (group, key) ≠ documentValue [l] group key) :
    ¬ Documented [l] none := by
  rw [documented_iff (by simpa using hvalid)]
  intro hsay
  have hdiff := hsay group key
  rw [Option.toList_none, List.append_nil, List.flatMap_singleton] at hdiff
  exact h hdiff

/-- A value that does not fit into the buffer is cut, when nothing behind it is read. -/
theorem long_entry_not_documented {key a b : StdString} (hvalid : (Line.entry key (a ++ b)).Valid)
    (hlen : (key ++ 61 :: a).length = BUFF_LEN - 1) (hrest : fileEvents b = [])
    (hvalue : trim a ≠ trim (a ++ b)) : ¬ Documented [.entry key (a ++ b)] none := by
  obtain ⟨hkey, -, hgroup⟩ := hvalid.entry key (a ++ b) rfl
  have htext : (Line.entry key (a ++ b)).text = (key ++ 61 :: a) ++ b := by simp [Line.text]
  have hnewline := hvalid.newline
  have hnul := hvalid.nul
  rw [htext] at hnewline hnul hgroup
  have hcut : fgets BUFF_LEN (Line.entry key (a ++ b)).text = some (key ++ 61 :: a, b) := by
    have hlong := fgets_long hnewline (by rw [List.length_append, hlen]; omega) []
    rwa [List.append_nil, List.append_nil, List.take_left' hlen, List.drop_left' hlen, ← htext]
      at hlong
  have hgroupFirst : ¬ IsGroup (key ++ 61 :: a) := by
    intro hfirst
    refine hgroup ⟨?_, List.mem_append_left b hfirst.2⟩
    rw [List.head?_append, hfirst.1]
    rfl
  have hnulFirst : 0 ∉ key ++ 61 :: a := fun hmem => hnul (List.mem_append_left b hmem)
  apply not_documented_single hvalid [] (trim key)
  rw [fileEvents_cons hcut, cStr_of_not_mem hnulFirst, lineEvents_entry hkey hgroupFirst, hrest]
  simpa [documentValue, Line.events, settings, lastValue] using hvalue

/-- `#a=b`. -/
def commentSetting : Line := .comment [97, 61, 98]

/-- `k=` and so many times `v` that the last is cut from the line. -/
def longEntry : Line := .entry [107] (List.replicate (BUFF_LEN - 3) 118 ++ [118])

/-- A comment makes a setting, and a value that is too long for the buffer is cut. -/
theorem stdConfigFileOpen_undocumented :
    (commentSetting.Valid ∧ ¬ Documented [commentSetting] none) ∧
      longEntry.Valid ∧ ¬ Documented [longEntry] none := by
  have hcomment : commentSetting.Valid :=
    ⟨by simp [commentSetting, Line.text], by simp [commentSetting, Line.text],
      by simp [commentSetting], by simp [commentSetting], by simp [commentSetting]⟩
  have hlong : longEntry.Valid := by
    refine ⟨by simp [longEntry, Line.text], by simp [longEntry, Line.text],
      by simp [longEntry], by simp [longEntry], ?_⟩
    intro key value heq
    cases heq
    simp [longEntry, Line.text, IsGroup]
  refine ⟨⟨hcomment, ?_⟩, hlong, ?_⟩
  · apply not_documented_single hcomment [] [35, 97]
    have hfits : commentSetting.text.length ≤ BUFF_LEN - 1 := by
      simp [commentSetting, Line.text, BUFF_LEN]
    have hevents : fileEvents commentSetting.text = [.set [35, 97] [98]] := by
      rw [fileEvents_last hcomment.newline hcomment.nul hfits]
      rfl
    rw [hevents]
    simp [documentValue, commentSetting, Line.events, settings, lastValue]
  · have htrim (n : Nat) : trim (List.replicate n 118) = List.replicate n 118 := by
      apply Trimmed.trim
      apply trimmed_of_all
      simp [isspace]
    have hjoin : List.replicate (BUFF_LEN - 3) (118 : UInt8) ++ [118] =
        List.replicate (BUFF_LEN - 3 + 1) 118 := List.replicate_succ'.symm
    apply long_entry_not_documented hlong
    · rw [List.length_append, List.length_cons, List.length_cons, List.length_replicate]
      rfl
    · exact fileEvents_last (by simp) (by simp) (by simp [BUFF_LEN])
    · rw [hjoin, htrim, htrim]
      intro heq
      have hlen := congrArg List.length heq
      simp at hlen

end OpxCommonUtils.Text
