import OpxCommonUtils.Dir.Iterate
import OpxCommonUtils.Misc.Splitting

/-!
# Walking a directory tree

`Listing` is what stands below a directory, in the order in which its entries are read. The trace
of `std_dir_iterate` on a tree follows its structure (`trace`); the types in it are those of the
entries when no `d_type` shares a bit with another one that is tested for.
-/

namespace OpxCommonUtils.Dir

/-- The entries that are no directories. -/
inductive Kind where
  | fifo
  | chr
  | blk
  | reg
  | lnk
  | sock
  deriving DecidableEq, Repr

/-- `d_type`. -/
def Kind.dType : Kind → Nat
  | .fifo => DT_FIFO
  | .chr => DT_CHR
  | .blk => DT_BLK
  | .reg => DT_REG
  | .lnk => DT_LNK
  | .sock => DT_SOCK

/-- The type that such an entry has for the callback. -/
def Kind.type : Kind → FileType
  | .reg => .FILE
  | .lnk => .LINK
  | _ => .OTHER

/-- The entries of a directory, with what is below each. -/
inductive Listing where
  | nil
  | file (name : StdString) (kind : Kind) (rest : Listing)
  | dir (name : StdString) (below rest : Listing)
  deriving DecidableEq, Repr

namespace Listing

/-- The entries of the directory itself. -/
def dirents : Listing → List Dirent
  | .nil => []
  | .file name kind rest => ⟨name, kind.dType⟩ :: rest.dirents
  | .dir name _ rest => ⟨name, DT_DIR⟩ :: rest.dirents

/-- The names in the directory. -/
def names (l : Listing) : List StdString := l.dirents.map Dirent.dName

/-- The levels of directories. -/
def depth : Listing → Nat
  | .nil => 1
  | .file _ _ rest => rest.depth
  | .dir _ below rest => max (below.depth + 1) rest.depth

/-- All entries below the directory `path` with their paths, contents first. The types of those that
are no directories are given by `f`. -/
def report (f : Kind → FileType) (path : StdString) : Listing → List (StdString × FileType)
  | .nil => []
  | .file name kind rest => (pathname path name, f kind) :: rest.report f path
  | .dir name below rest =>
    below.report f (pathname path name) ++ (pathname path name, .DIR) :: rest.report f path

/-- All entries with their types. -/
def entries (path : StdString) (l : Listing) : List (StdString × FileType) := l.report Kind.type path

/-- The directories among them. -/
def dirs (path : StdString) : Listing → List StdString
  | .nil => []
  | .file _ _ rest => rest.dirs path
  | .dir name below rest =>
    pathname path name :: (below.dirs (pathname path name) ++ rest.dirs path)

/-- The kinds of the entries that are no directories. -/
def kinds : Listing → List Kind
  | .nil => []
  | .file _ kind rest => kind :: rest.kinds
  | .dir _ below rest => below.kinds ++ rest.kinds

/-- The names of one directory differ, have no slash and are not `.` or `..`. -/
def WellNamed : Listing → Prop
  | .nil => True
  | .file name _ rest => name ∉ rest.names ∧ 47 ∉ name ∧ name ≠ [46] ∧ name ≠ [46, 46] ∧
    rest.WellNamed
  | .dir name below rest => name ∉ rest.names ∧ 47 ∉ name ∧ name ≠ [46] ∧ name ≠ [46, 46] ∧
    below.WellNamed ∧ rest.WellNamed

end Listing

/-- The entries of a directory are those of `l`, and `.` and `..` at some places. -/
def Lists (ds : List Dirent) (l : Listing) : Prop :=
  ds.filter (fun d => d.dName ≠ [46] ∧ d.dName ≠ [46, 46]) = l.dirents ∧
    ∀ d ∈ ds, d.dName = [46] ∨ d.dName = [46, 46] → d.dType = DT_DIR

/-- `opendir` finds below `path` what `l` says: the directories, while other entries cannot be
opened, except that a symbolic link may lead anywhere. -/
def Holds (opendir : StdString → Except Nat (List Dirent)) (path : StdString) : Listing → Prop
  | .nil => True
  | .file name kind rest =>
    (kind ≠ .lnk → ∃ errno, opendir (pathname path name) = .error errno) ∧ Holds opendir path rest
  | .dir name below rest =>
    (∃ ds, opendir (pathname path name) = .ok ds ∧ Lists ds below) ∧
      Holds opendir (pathname path name) below ∧ Holds opendir path rest

/-! ## The trace -/

/-- What `std_dir_iterate` does: it tries to open a directory, or it calls the callback. -/
inductive Event where
  | opened (path : StdString)
  | called (path : StdString) (t : FileType)
  deriving DecidableEq, Repr

/-- The path and the type that the callback is called with. -/
def Event.call : Event → Option (StdString × FileType)
  | .opened _ => none
  | .called path t => some (path, t)

/-- The path that is opened. -/
def Event.path : Event → Option StdString
  | .opened path => some path
  | .called _ _ => none

/-- The calls of the callback. -/
def calls (w : List Event) : List (StdString × FileType) := w.filterMap Event.call

/-- The paths that were opened. -/
def opens (w : List Event) : List StdString := w.filterMap Event.path

/-- `opendir` under a trace. -/
def openEvent (opendir : StdString → Except Nat (List Dirent)) (path : StdString) (w : List Event) :
    Except Nat (List Dirent) × List Event :=
  (opendir path, w ++ [.opened path])

/-- A callback that always returns true. -/
def callEvent (path : StdString) (t : FileType) (w : List Event) : Bool × List Event :=
  (true, w ++ [.called path t])

/-- The run of `std_dir_iterate` on `path`. -/
def run (opendir : StdString → Except Nat (List Dirent)) (fuel : Nat) (path : StdString)
    (w : List Event) : Exec (StdError × List Event) :=
  stdDirIterate (openEvent opendir) callEvent true fuel path w

/-- What `std_dir_iterate` does below a directory. -/
def trace (path : StdString) : Listing → List Event
  | .nil => []
  | .file name kind rest =>
    (if fileType kind.dType = .DIR then [.opened (pathname path name)] else []) ++
      .called (pathname path name) (fileType kind.dType) :: trace path rest
  | .dir name below rest =>
    .opened (pathname path name) :: (trace (pathname path name) below ++
      .called (pathname path name) .DIR :: trace path rest)

/-- Each entry of the tree is reported once with its type, a directory after its contents, and only
directories are opened. -/
structure Reports (opendir : StdString → Except Nat (List Dirent)) (path : StdString)
    (l : Listing) (w : List Event) : Prop where
  ends : ∃ n, ∀ fuel ≥ n, run opendir fuel path [] = .ok (.ok, w)
  calls_perm : (calls w).Perm (l.entries path)
  contents_first : (calls w).Pairwise fun c d => c.2 = .DIR → ¬ pathname c.1 [] <+: d.1
  opens_dirs : ∀ p ∈ opens w, p ∈ path :: l.dirs path

theorem fileType_dir : fileType DT_DIR = .DIR := by decide

theorem Listing.depth_pos (l : Listing) : 0 < l.depth := by
  induction l with
  | nil => exact Nat.one_pos
  | file name kind rest ih => exact ih
  | dir name below rest _ ih => exact lt_max_of_lt_right ih

/-- `.` and `..` are passed over. -/
theorem readLoop_filter {σ : Type} {iterate : StdString → σ → Exec (StdError × σ)}
    {cb : StdString → FileType → σ → Bool × σ} {path : StdString} {ds : List Dirent}
    (hdots : ∀ d ∈ ds, d.dName = [46] ∨ d.dName = [46, 46] → d.dType = DT_DIR) (w : σ) :
    readLoop iterate cb true path ds w =
      readLoop iterate cb true path
        (ds.filter fun d => d.dName ≠ [46] ∧ d.dName ≠ [46, 46]) w := by
  induction ds generalizing w with
  | nil => rfl
  | cons d ds ih =>
    obtain ⟨hd, hdots⟩ := List.forall_mem_cons.mp hdots
    by_cases hdot : d.dName = [46] ∨ d.dName = [46, 46]
    · have htype : fileType d.dType = .DIR := by rw [hd hdot, fileType_dir]
      rw [List.filter_cons_of_neg (by simp only [decide_eq_true_eq]; tauto), ← ih hdots, readLoop]
      rcases hdot with hdot | hdot <;> simp [htype, hdot]
    · rw [not_or] at hdot
      rw [List.filter_cons_of_pos (by simpa using hdot), readLoop, readLoop]
      simp only [hdot, and_false, if_false, ih hdots]

variable {opendir : StdString → Except Nat (List Dirent)} {path : StdString}

/-- An entry that cannot be opened. -/
theorem run_error {errno fuel : Nat} (h : opendir path = .error errno) (hfuel : 0 < fuel)
    (w : List Event) : ∃ rc, run opendir fuel path w = .ok (rc, w ++ [.opened path]) := by
  obtain ⟨fuel, rfl⟩ : ∃ m, fuel = m + 1 := ⟨fuel - 1, by omega⟩
  exact ⟨_, by rw [run, stdDirIterate, stdDirInit, openEvent, h]⟩

/-- An entry that is no `.` or `..`, before the rest. -/
theorem readLoop_cons {fuel : Nat} {d : Dirent} (h : d.dName ≠ [46]) (h' : d.dName ≠ [46, 46])
    (ds : List Dirent) (w w' : List Event)
    (hw : (if fileType d.dType = .DIR then
        (run opendir fuel (pathname path d.dName) w).map Prod.snd else .ok w) = .ok w') :
    readLoop (run opendir fuel) callEvent true path (d :: ds) w =
      readLoop (run opendir fuel) callEvent true path ds
        (w' ++ [.called (pathname path d.dName) (fileType d.dType)]) := by
  rw [readLoop]
  simp only [h, h', and_false, if_false, and_true]
  by_cases ht : fileType d.dType = .DIR
  · rw [if_pos ht] at hw ⊢
    cases hrun : run opendir fuel (pathname path d.dName) w with
    | error e => simp [hrun, Except.map] at hw
    | ok r =>
      simp only [hrun, Except.map, Except.ok.injEq] at hw
      subst hw
      rfl
  · rw [if_neg ht, Except.ok.injEq] at hw
    subst hw
    rw [if_neg ht]
    rfl

theorem readLoop_trace {l : Listing} : ∀ {path : StdString} {fuel : Nat} {w : List Event},
    l.depth ≤ fuel → Holds opendir path l → l.WellNamed →
      readLoop (run opendir fuel) callEvent true path l.dirents w = .ok (w ++ trace path l) := by
  induction l with
  | nil =>
    intro path fuel w _ _ _
    rw [Listing.dirents, readLoop, trace, List.append_nil]
  | file name kind rest ih =>
    rintro path fuel w hfuel ⟨hopen, hrest⟩ ⟨-, -, hdot, hdots, hnames⟩
    rw [Listing.depth] at hfuel
    have hpos := rest.depth_pos
    have hw : ∃ w', (if fileType kind.dType = .DIR then
        (run opendir fuel (pathname path name) w).map Prod.snd else .ok w) = .ok w' ∧
        w' = w ++ if fileType kind.dType = .DIR then [.opened (pathname path name)] else [] := by
      by_cases ht : fileType kind.dType = .DIR
      · have hlnk : kind ≠ .lnk := by
          rintro rfl
          exact absurd ht (by decide)
        obtain ⟨errno, herr⟩ := hopen hlnk
        obtain ⟨rc, hrun⟩ := run_error herr (by omega : 0 < fuel) w
        rw [if_pos ht, if_pos ht, hrun]
        exact ⟨_, rfl, rfl⟩
      · rw [if_neg ht, if_neg ht, List.append_nil]
        exact ⟨w, rfl, rfl⟩
    obtain ⟨w', hw, rfl⟩ := hw
    rw [Listing.dirents, readLoop_cons hdot hdots _ _ _ hw, ih hfuel hrest hnames, trace]
    simp only [List.append_assoc, List.singleton_append]
  | dir name below rest ihbelow ihrest =>
    rintro path fuel w hfuel ⟨⟨ds, hopen, hds, hdirs⟩, hbelow, hrest⟩
      ⟨-, -, hdot, hdots, hnames, hnames'⟩
    rw [Listing.depth] at hfuel
    obtain ⟨fuel, rfl⟩ : ∃ m, fuel = m + 1 := ⟨fuel - 1, by omega⟩
    have hrun : run opendir (fuel + 1) (pathname path name) w =
        .ok (.ok, w ++ [.opened (pathname path name)] ++ trace (pathname path name) below) := by
      rw [run, stdDirIterate, stdDirInit, openEvent, hopen]
      have h := ihbelow (w := w ++ [.opened (pathname path name)]) (by omega : below.depth ≤ fuel)
        hbelow hnames
      rw [← hds, ← readLoop_filter hdirs] at h
      exact congrArg (fun x => x >>= fun w => pure (StdError.ok, w)) h
    rw [Listing.dirents, readLoop_cons hdot hdots _ _ _ (by rw [if_pos fileType_dir, hrun]; rfl),
      ihrest (by omega) hrest hnames', trace, fileType_dir]
    simp only [List.append_assoc, List.nil_append, List.cons_append]

/-- The run on a tree. -/
theorem run_trace {l : Listing} {ds : List Dirent} (hopen : opendir path = .ok ds)
    (hds : Lists ds l) (hl : Holds opendir path l) (hnames : l.WellNamed) {fuel : Nat}
    (hfuel : l.depth ≤ fuel) :
    run opendir (fuel + 1) path [] = .ok (.ok, .opened path :: trace path l) := by
  rw [run, stdDirIterate, stdDirInit, openEvent, hopen]
  have h := readLoop_trace (w := [.opened path]) hfuel hl hnames
  rw [← hds.1, ← readLoop_filter hds.2] at h
  exact congrArg (fun x => x >>= fun w => pure (StdError.ok, w)) h

/-! ## The types -/

@[simp] theorem calls_nil : calls [] = [] := rfl

@[simp] theorem calls_append (w w' : List Event) : calls (w ++ w') = calls w ++ calls w' :=
  List.filterMap_append

@[simp] theorem calls_opened (p : StdString) (w : List Event) :
    calls (.opened p :: w) = calls w := rfl

@[simp] theorem calls_called (p : StdString) (t : FileType) (w : List Event) :
    calls (.called p t :: w) = (p, t) :: calls w := rfl

@[simp] theorem opens_nil : opens [] = [] := rfl

@[simp] theorem opens_append (w w' : List Event) : opens (w ++ w') = opens w ++ opens w' :=
  List.filterMap_append

@[simp] theorem opens_opened (p : StdString) (w : List Event) :
    opens (.opened p :: w) = p :: opens w := rfl

@[simp] theorem opens_called (p : StdString) (t : FileType) (w : List Event) :
    opens (.called p t :: w) = opens w := rfl

/-- The callback is called with the types that `d_type` gives. -/
theorem calls_trace (l : Listing) (path : StdString) :
    calls (trace path l) = l.report (fun k => fileType k.dType) path := by
  induction l generalizing path with
  | nil => rfl
  | file name kind rest ih =>
    rw [trace, calls_append, calls_called, ih, Listing.report]
    split <;> simp
  | dir name below rest ihbelow ihrest =>
    rw [trace, calls_opened, calls_append, calls_called, ihbelow, ihrest, Listing.report]

theorem countP_report {t : FileType} (ht : t ≠ .DIR) (f : Kind → FileType) (l : Listing)
    (path : StdString) :
    (l.report f path).countP (fun c => c.2 = t) = l.kinds.countP fun k => f k = t := by
  induction l generalizing path with
  | nil => rfl
  | file name kind rest ih =>
    rw [Listing.report, Listing.kinds, List.countP_cons, List.countP_cons, ih]
  | dir name below rest ihbelow ihrest =>
    rw [Listing.report, Listing.kinds, List.countP_append, List.countP_append, ihbelow,
      List.countP_cons_of_neg (by simpa using ht.symm), ihrest]

theorem report_congr {f g : Kind → FileType} {l : Listing} (h : ∀ k ∈ l.kinds, f k = g k)
    (path : StdString) : l.report f path = l.report g path := by
  induction l generalizing path with
  | nil => rfl
  | file name kind rest ih =>
    rw [Listing.kinds] at h
    obtain ⟨hk, hrest⟩ := List.forall_mem_cons.mp h
    rw [Listing.report, Listing.report, hk, ih hrest]
  | dir name below rest ihbelow ihrest =>
    rw [Listing.kinds] at h
    obtain ⟨hbelow, hrest⟩ := List.forall_mem_append.mp h
    rw [Listing.report, Listing.report, ihbelow hbelow, ihrest hrest]

theorem opens_trace {l : Listing} (h : ∀ k ∈ l.kinds, fileType k.dType = k.type)
    (path : StdString) : opens (trace path l) = l.dirs path := by
  induction l generalizing path with
  | nil => rfl
  | file name kind rest ih =>
    rw [Listing.kinds] at h
    obtain ⟨hk, hrest⟩ := List.forall_mem_cons.mp h
    have hdir : ¬ fileType kind.dType = .DIR := by
      rw [hk]
      cases kind <;> decide
    rw [trace, if_neg hdir, List.nil_append, opens_called, ih hrest, Listing.dirs]
  | dir name below rest ihbelow ihrest =>
    rw [Listing.kinds] at h
    obtain ⟨hbelow, hrest⟩ := List.forall_mem_append.mp h
    rw [trace, opens_opened, opens_append, opens_called, ihbelow hbelow, ihrest hrest,
      Listing.dirs]

theorem type_eq_iff (k : Kind) : fileType k.dType = k.type ↔ k = .fifo ∨ k = .reg := by
  cases k <;> decide

/-- As many elements satisfy `p` as satisfy the weaker `q`. -/
theorem of_countP_eq {α : Type} {p q : α → Bool} (hpq : ∀ a, p a → q a) {l : List α}
    (h : l.countP p = l.countP q) : ∀ a ∈ l, q a → p a := by
  induction l with
  | nil => simp
  | cons a l ih =>
    have hle := List.countP_mono_left (l := l) fun a _ => hpq a
    rw [List.countP_cons, List.countP_cons] at h
    have hhead : q a → p a := by
      intro hq
      by_contra hp
      simp only [hp, hq] at h
      simp at h
      omega
    have htail : l.countP p = l.countP q := by
      by_cases hp : p a
      · simp only [hp, hpq a hp] at h
        omega
      · have hq : ¬ q a := fun hq => hp (hhead hq)
        simp only [hp, hq] at h
        omega
    intro b hb
    rcases List.mem_cons.mp hb with rfl | hb
    · exact hhead
    · exact ih htail b hb

/-- Calls that match the entries leave no kind out. -/
theorem kinds_of_perm {l : Listing} {path : StdString}
    (h : (calls (trace path l)).Perm (l.entries path)) : ∀ k ∈ l.kinds, k = .fifo ∨ k = .reg := by
  have hcount (t : FileType) (ht : t ≠ .DIR) :
      (l.kinds.countP fun k => fileType k.dType = t) = l.kinds.countP fun k => k.type = t := by
    rw [← countP_report ht (fun k => fileType k.dType) l path, ← calls_trace, h.countP_eq,
      Listing.entries, countP_report ht]
  have hother := of_countP_eq (by intro k; cases k <;> decide) (hcount .OTHER (by decide))
  intro k hk
  cases k with
  | fifo => exact .inl rfl
  | reg => exact .inr rfl
  | chr => exact absurd (hother _ hk (by decide)) (by decide)
  | blk => exact absurd (hother _ hk (by decide)) (by decide)
  | sock => exact absurd (hother _ hk (by decide)) (by decide)
  | lnk =>
    have hfile := of_countP_eq (by intro k; cases k <;> decide) (hcount .FILE (by decide)).symm
    exact absurd (hfile _ hk (by decide)) (by decide)

/-! ## The order -/

theorem Listing.WellNamed.not_slash {l : Listing} (h : l.WellNamed) : ∀ n ∈ l.names, 47 ∉ n := by
  induction l with
  | nil => simp [names, dirents]
  | file name kind rest ih => exact List.forall_mem_cons.mpr ⟨h.2.1, ih h.2.2.2.2⟩
  | dir name below rest _ ih => exact List.forall_mem_cons.mpr ⟨h.2.1, ih h.2.2.2.2.2⟩

/-- An entry is in the directory or below one in it. -/
theorem mem_report {f : Kind → FileType} {l : Listing} {path : StdString}
    {c : StdString × FileType} (h : c ∈ l.report f path) :
    ∃ n ∈ l.names, c.1 = pathname path n ∨ pathname (pathname path n) [] <+: c.1 := by
  induction l generalizing path with
  | nil => simp [Listing.report] at h
  | file name kind rest ih =>
    rcases List.mem_cons.mp h with rfl | h
    · exact ⟨name, List.mem_cons_self, .inl rfl⟩
    · obtain ⟨n, hn, hc⟩ := ih h
      exact ⟨n, List.mem_cons_of_mem _ hn, hc⟩
  | dir name below rest ihbelow ihrest =>
    rcases List.mem_append.mp h with h | h
    · obtain ⟨n, -, hc⟩ := ihbelow h
      refine ⟨name, List.mem_cons_self, .inr ?_⟩
      rcases hc with hc | hc
      · rw [hc]
        exact ⟨n, by simp [pathname]⟩
      · obtain ⟨z, hz⟩ := hc
        exact ⟨n ++ 47 :: z, by simp [pathname, ← hz]⟩
    · rcases List.mem_cons.mp h with rfl | h
      · exact ⟨name, List.mem_cons_self, .inl rfl⟩
      · obtain ⟨n, hn, hc⟩ := ihrest h
        exact ⟨n, List.mem_cons_of_mem _ hn, hc⟩

/-- What the other entries of a directory are or contain is not below the entry `name`. -/
theorem not_below {f : Kind → FileType} {name path : StdString} {rest : Listing}
    (hname : name ∉ rest.names) (hslash : 47 ∉ name) (hrest : rest.WellNamed)
    {c : StdString × FileType} (h : c ∈ rest.report f path) :
    ¬ pathname (pathname path name) [] <+: c.1 := by
  rintro ⟨y, hy⟩
  obtain ⟨n, hn, hc⟩ := mem_report h
  have hn' := hrest.not_slash n hn
  have hne : name ≠ n := fun heq => hname (heq ▸ hn)
  rcases hc with hc | ⟨z, hc⟩
  · rw [hc] at hy
    simp only [pathname, List.append_assoc, List.cons_append, List.append_cancel_left_eq,
      List.cons.injEq, true_and, List.nil_append] at hy
    exact hn' (hy ▸ by simp)
  · rw [← hc] at hy
    simp only [pathname, List.append_assoc, List.cons_append, List.append_cancel_left_eq,
      List.cons.injEq, true_and, List.nil_append] at hy
    exact hne (append_cons_cancel hslash hn' hy).1

/-- No entry is reported after the directory that it is below. -/
theorem report_pairwise {f : Kind → FileType} {l : Listing} (h : l.WellNamed)
    (hf : ∀ k, f k ≠ .DIR) (path : StdString) :
    (l.report f path).Pairwise fun c d => c.2 = .DIR → ¬ pathname c.1 [] <+: d.1 := by
  induction l generalizing path with
  | nil => exact .nil
  | file name kind rest ih =>
    obtain ⟨-, -, -, -, hrest⟩ := h
    exact List.pairwise_cons.mpr ⟨fun _ _ hdir => absurd hdir (hf kind), ih hrest path⟩
  | dir name below rest ihbelow ihrest =>
    obtain ⟨hname, hslash, -, -, hbelow, hrest⟩ := h
    refine List.pairwise_append.mpr ⟨ihbelow hbelow _, List.pairwise_cons.mpr
      ⟨fun d hd _ => not_below hname hslash hrest hd, ihrest hrest path⟩, ?_⟩
    intro c hc d hd _ hpre
    -- `c` is below `name`, so that what is below `c` is also
    obtain ⟨n, -, hc⟩ := mem_report hc
    have hlong : pathname (pathname path name) [] <+: pathname c.1 [] := by
      rcases hc with hc | ⟨z, hc⟩
      · exact ⟨n ++ [47], by simp [pathname, hc]⟩
      · exact ⟨n ++ 47 :: z ++ [47], by simp [pathname, ← hc]⟩
    rcases List.mem_cons.mp hd with rfl | hd
    · have hlen := (hlong.trans hpre).length_le
      simp only [pathname, List.length_append, List.length_cons, List.length_nil] at hlen
      omega
    · exact not_below hname hslash hrest hd (hlong.trans hpre)

/-! ## The result -/

theorem kinds_of_reports {l : Listing} {ds : List Dirent} (hopen : opendir path = .ok ds)
    (hds : Lists ds l) (hl : Holds opendir path l) (hnames : l.WellNamed) {w : List Event}
    (h : Reports opendir path l w) : ∀ k ∈ l.kinds, k = .fifo ∨ k = .reg := by
  obtain ⟨n, hends⟩ := h.ends
  have hrun := hends (max n (l.depth + 1)) (Nat.le_max_left ..)
  rw [← Nat.sub_add_cancel (show 1 ≤ max n (l.depth + 1) by omega),
    run_trace hopen hds hl hnames (by omega)] at hrun
  obtain rfl : .opened path :: trace path l = w := by simpa using hrun
  exact kinds_of_perm h.calls_perm

/-- `std_dir_iterate` reports a directory tree, recursively and with a callback that always returns
true, exactly when its entries besides the directories are regular files and fifos. -/
theorem reports_iff {l : Listing} {ds : List Dirent} (hopen : opendir path = .ok ds)
    (hds : Lists ds l) (hl : Holds opendir path l) (hnames : l.WellNamed) :
    (∃ w, Reports opendir path l w) ↔ ∀ k ∈ l.kinds, k = .fifo ∨ k = .reg := by
  constructor
  · rintro ⟨w, h⟩
    exact kinds_of_reports hopen hds hl hnames h
  · intro h
    have htype : ∀ k ∈ l.kinds, fileType k.dType = k.type := fun k hk => (type_eq_iff k).mpr (h k hk)
    have hcalls : calls (.opened path :: trace path l) = l.entries path := by
      rw [calls_opened, calls_trace, report_congr htype, Listing.entries]
    refine ⟨.opened path :: trace path l, ⟨l.depth + 1, fun fuel hfuel => ?_⟩, ?_, ?_, ?_⟩
    · rw [← Nat.sub_add_cancel (show 1 ≤ fuel by omega)]
      exact run_trace hopen hds hl hnames (by omega)
    · rw [hcalls]
    · rw [hcalls]
      exact report_pairwise hnames (by intro k; cases k <;> decide) path
    · rw [opens_opened, opens_trace htype]
      exact fun p hp => hp

/-- A tree with a regular file, and a directory that contains a fifo. -/
def sampleTree : Listing :=
  .file [97] .reg (.dir [98] (.file [99] .fifo .nil) .nil)

/-- The file system with this tree at `/t`. -/
def sampleOpendir (path : StdString) : Except Nat (List Dirent) :=
  if path = [47, 116] then
    .ok [⟨[46], DT_DIR⟩, ⟨[97], DT_REG⟩, ⟨[46, 46], DT_DIR⟩, ⟨[98], DT_DIR⟩]
  else if path = [47, 116, 47, 98] then
    .ok [⟨[46], DT_DIR⟩, ⟨[46, 46], DT_DIR⟩, ⟨[99], DT_FIFO⟩]
  else .error ENOENT

theorem reports_sample : ∃ w, Reports sampleOpendir [47, 116] sampleTree w := by
  have hl : Holds sampleOpendir [47, 116] sampleTree :=
    ⟨fun _ => ⟨ENOENT, rfl⟩, ⟨_, rfl, by decide, by decide⟩, ⟨fun _ => ⟨ENOENT, rfl⟩, trivial⟩,
      trivial⟩
  exact (reports_iff rfl ⟨by decide, by decide⟩ hl
    (by simp [sampleTree, Listing.WellNamed, Listing.names, Listing.dirents])).mpr (by decide)

/-- The file system with a dangling symbolic link in `/t`. -/
def linkOpendir (path : StdString) : Except Nat (List Dirent) :=
  if path = [47, 116] then .ok [⟨[46], DT_DIR⟩, ⟨[46, 46], DT_DIR⟩, ⟨[108], DT_LNK⟩]
  else .error ENOENT

/-- A symbolic link is reported as a regular file. -/
theorem link_reported_as_file : ¬ ∀ (opendir : StdString → Except Nat (List Dirent))
    (path : StdString) (l : Listing) (ds : List Dirent), opendir path = .ok ds → Lists ds l →
      Holds opendir path l → l.WellNamed → ∃ w, Reports opendir path l w := by
  intro h
  have hds : Lists [⟨[46], DT_DIR⟩, ⟨[46, 46], DT_DIR⟩, ⟨[108], DT_LNK⟩]
      (.file [108] .lnk .nil) := ⟨by decide, by decide⟩
  have hl : Holds linkOpendir [47, 116] (.file [108] .lnk .nil) :=
    ⟨fun hlnk => absurd rfl hlnk, trivial⟩
  have hnames : (Listing.file [108] .lnk .nil).WellNamed := by
    simp [Listing.WellNamed, Listing.names, Listing.dirents]
  obtain ⟨w, hw⟩ := h _ _ _ _ rfl hds hl hnames
  exact absurd (kinds_of_reports rfl hds hl hnames hw .lnk (by decide)) (by decide)

end OpxCommonUtils.Dir
