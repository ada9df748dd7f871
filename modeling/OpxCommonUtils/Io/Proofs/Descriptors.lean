import Mathlib.Data.List.Forall2
import Mathlib.Tactic.Common
import OpxCommonUtils.Io.Descriptors

/-!
# The table of the descriptors afterwards

Whatever system calls fail, duplicating and redirecting descriptors leaves none behind that the
caller does not know of.
-/

namespace OpxCommonUtils.Io.Process

variable {p q : Process}

/-! ## The calls -/

/-- The script without the answer to the next call. -/
def skip (p : Process) : Process := { p with failures := p.failures.tail }

@[simp] theorem skip_files (p : Process) : p.skip.files = p.files := rfl

@[simp] theorem skip_ns (p : Process) : p.skip.ns = p.ns := rfl

@[simp] theorem skip_selfNs (p : Process) : p.skip.selfNs = p.selfNs := rfl

@[simp] theorem skip_limit (p : Process) : p.skip.limit = p.limit := rfl

@[simp] theorem skip_named (p : Process) : p.skip.named = p.named := rfl

@[simp] theorem skip_file (p : Process) (fd : Int) : p.skip.file fd = p.file fd := rfl

@[simp] theorem skip_failures (p : Process) : p.skip.failures = p.failures.drop 1 :=
  List.drop_one.symm

@[simp] theorem setFile_files (p : Process) (fd : Nat) (f : Option File) :
    (p.setFile fd f).files = Function.update p.files fd f := rfl

@[simp] theorem setFile_ns (p : Process) (fd : Nat) (f : Option File) :
    (p.setFile fd f).ns = p.ns := rfl

@[simp] theorem setFile_limit (p : Process) (fd : Nat) (f : Option File) :
    (p.setFile fd f).limit = p.limit := rfl

@[simp] theorem setFile_named (p : Process) (fd : Nat) (f : Option File) :
    (p.setFile fd f).named = p.named := rfl

@[simp] theorem setFile_failures (p : Process) (fd : Nat) (f : Option File) :
    (p.setFile fd f).failures = p.failures := rfl

theorem file_natCast (p : Process) (fd : Nat) : p.file fd = p.files fd := by
  simp [file]

theorem exists_of_file {fd : Int} {f : File} (h : p.file fd = some f) :
    ∃ n : Nat, fd = n ∧ p.files n = some f := by
  unfold file at h
  split_ifs at h with hpos
  exact ⟨fd.toNat, (Int.toNat_of_nonneg hpos).symm, h⟩

/-- The next call fails exactly when the script says so. -/
theorem call_eq (p : Process) : p.call = (decide (p.failures.head? ≠ some true), p.skip) := by
  obtain ⟨limit, files, ns, leader, named, failures⟩ := p
  cases failures with
  | nil => rfl
  | cons f failures => cases f <;> rfl

theorem lowest_spec {fd : Nat} (h : p.lowest = some fd) : p.files fd = none := by
  have hsome := List.find?_some h
  simpa using hsome

theorem lowest_lt {fd : Nat} (h : p.lowest = some fd) : fd < p.limit :=
  List.mem_range.mp (List.mem_of_find?_eq_some h)

/-- A descriptor is made, the lowest that was free, or the table stays as it is. -/
theorem install_cases (p : Process) (f : Option File) :
    p.install f = (-1, p.skip) ∨
      ∃ (fd : Nat) (g : File), f = some g ∧ p.files fd = none ∧
        p.install f = ((fd : Int), p.skip.setFile fd (some g)) := by
  unfold install
  rw [call_eq]
  by_cases hcall : p.failures.head? = some true
  · left
    simp [hcall]
  · cases f with
    | none =>
      left
      simp [hcall]
    | some g =>
      cases hlow : p.skip.lowest with
      | none =>
        left
        simp [hcall, hlow]
      | some fd =>
        right
        refine ⟨fd, g, rfl, lowest_spec (p := p.skip) hlow, ?_⟩
        simp [hcall, hlow]

/-- What a call that made a descriptor found: it was let succeed, and there was a number left. -/
theorem install_ok {fd : Nat} {f : Option File} (h : p.install f = ((fd : Int), q)) :
    p.failures.head? ≠ some true ∧ fd < p.limit := by
  unfold install at h
  rw [call_eq] at h
  by_cases hcall : p.failures.head? = some true
  · simp [hcall] at h
  · cases f with
    | none => simp [hcall] at h
    | some g =>
      cases hlow : p.skip.lowest with
      | none => simp [hcall, hlow] at h
      | some n =>
        have heq : (n : Int) = fd := by simpa [hcall, hlow] using congrArg Prod.fst h
        obtain rfl : n = fd := by exact_mod_cast heq
        exact ⟨hcall, lowest_lt (p := p.skip) hlow⟩

theorem install_failures (p : Process) (f : Option File) :
    (p.install f).2.failures = p.failures.drop 1 := by
  rcases install_cases p f with hfail | ⟨n, g, -, -, hok⟩
  · rw [hfail, skip_failures]
  · rw [hok, setFile_failures, skip_failures]

/-- A closed descriptor refers to nothing, even when an error is reported; the others stay. -/
theorem close_files (p : Process) (fd : Int) (d : Nat) :
    (p.close fd).2.files d = if (d : Int) = fd then none else p.files d := by
  unfold close
  rw [call_eq]
  cases hf : p.file fd with
  | none =>
    split_ifs with heq
    · rw [← heq, file_natCast] at hf
      exact hf
    · rfl
  | some f =>
    obtain ⟨n, rfl, -⟩ := exists_of_file hf
    by_cases hd : d = n
    · simp [hd]
    · have hcast : (d : Int) ≠ n := by exact_mod_cast hd
      simp [Function.update_of_ne hd, hcast]

@[simp] theorem close_ns (p : Process) (fd : Int) : (p.close fd).2.ns = p.ns := by
  unfold close
  rw [call_eq]
  cases p.file fd <;> rfl

theorem dup2_cases (p : Process) (oldfd : Int) (newfd : Nat) :
    p.dup2 oldfd newfd = (false, p.skip) ∨
      ∃ f, p.file oldfd = some f ∧ newfd < p.limit ∧
        p.dup2 oldfd newfd = (true, p.skip.setFile newfd (some f)) := by
  unfold dup2
  rw [call_eq]
  by_cases hcall : p.failures.head? = some true
  · left
    simp [hcall]
  · cases hf : p.file oldfd with
    | none =>
      left
      simp
    | some f =>
      by_cases hlimit : newfd < p.limit
      · right
        exact ⟨f, rfl, hlimit, by simp [hcall, hlimit, skip]⟩
      · left
        simp [hcall, hlimit, skip]

@[simp] theorem dup2_ns (p : Process) (oldfd : Int) (newfd : Nat) :
    (p.dup2 oldfd newfd).2.ns = p.ns := by
  rcases dup2_cases p oldfd newfd with hfail | ⟨f, -, -, hok⟩
  · rw [hfail, skip_ns]
  · rw [hok, setFile_ns, skip_ns]

/-- `dup2` succeeds when the kernel lets it and both numbers are good ones. -/
theorem dup2_ok {oldfd : Int} {newfd : Nat} {f : File} (hcall : p.failures.head? ≠ some true)
    (hf : p.file oldfd = some f) (hlimit : newfd < p.limit) :
    p.dup2 oldfd newfd = (true, p.skip.setFile newfd (some f)) := by
  unfold dup2
  rw [call_eq, hf]
  simp [hcall, hlimit, skip]

/-- With good numbers `dup2` fails only when the kernel does not let it succeed. -/
theorem dup2_failed {oldfd : Int} {newfd : Nat} {f : File} (hf : p.file oldfd = some f)
    (hlimit : newfd < p.limit) (h : p.dup2 oldfd newfd = (false, q)) :
    p.failures.head? = some true := by
  by_contra hcall
  rw [dup2_ok hcall hf hlimit] at h
  cases h

theorem dup2_call {oldfd : Int} {newfd : Nat} (h : p.dup2 oldfd newfd = (true, q)) :
    p.failures.head? ≠ some true := by
  intro hcall
  unfold dup2 at h
  rw [call_eq] at h
  simp [hcall] at h

/-- A new descriptor leaves alone what the others refer to. -/
theorem file_made {n : Nat} {f : Option File} {fd : Int} (hfree : q.files n = none)
    (hfd : q.file fd ≠ none) : (q.skip.setFile n f).file fd = q.file fd := by
  obtain ⟨g, hg⟩ := Option.ne_none_iff_exists'.mp hfd
  obtain ⟨m, rfl, hm⟩ := exists_of_file hg
  have hne : m ≠ n := by
    rintro rfl
    rw [hfree] at hm
    cases hm
  rw [file_natCast, file_natCast, setFile_files, Function.update_of_ne hne, skip_files]

/-! ## Duplicates -/

theorem closeFds_files (fds : List Int) : ∀ (p : Process) (d : Nat),
    (p.closeFds fds).files d = if (d : Int) ∈ fds then none else p.files d := by
  induction fds with
  | nil => exact fun p d => rfl
  | cons fd fds ih =>
    intro p d
    rw [closeFds, ih, close_files]
    by_cases hd : (d : Int) ∈ fds
    · simp [hd]
    · simp [hd]

@[simp] theorem closeFds_ns (fds : List Int) : ∀ p : Process, (p.closeFds fds).ns = p.ns := by
  induction fds with
  | nil => exact fun p => rfl
  | cons fd fds ih => exact fun p => (ih _).trans (close_ns p fd)

/-- The table of `q` is that of `p` with some descriptors more. -/
structure Extends (p q : Process) (fds : List Int) : Prop where
  fresh : ∀ fd ∈ fds, p.file fd = none ∧ q.file fd ≠ none
  small : ∀ fd ∈ fds, fd < q.limit
  nodup : fds.Nodup
  others : ∀ d : Nat, (d : Int) ∉ fds → q.files d = p.files d
  ns : q.ns = p.ns

theorem Extends.refl (p : Process) : Extends p p [] :=
  ⟨by simp, by simp, .nil, fun _ _ => rfl, rfl⟩

theorem Extends.skip {fds : List Int} (h : Extends p q fds) : Extends p q.skip fds :=
  ⟨h.fresh, h.small, h.nodup, h.others, h.ns⟩

/-- The descriptors of the longer table that are not the new ones. -/
theorem Extends.file_eq {fds : List Int} (h : Extends p q fds) {fd : Int} (hfd : fd ∉ fds) :
    q.file fd = p.file fd := by
  unfold file
  split_ifs with hpos
  · apply h.others
    rwa [Int.toNat_of_nonneg hpos]
  · rfl

/-- Without the new descriptors the table is the shorter one. -/
theorem Extends.files_eq {fds : List Int} (h : Extends p q fds) (d : Nat) :
    (if (d : Int) ∈ fds then none else q.files d) = p.files d := by
  split_ifs with hd
  · rw [← file_natCast, (h.fresh _ hd).1]
  · exact h.others d hd

/-- Closing all the new descriptors gives the table back. -/
theorem Extends.closeFds {fds : List Int} (h : Extends p q fds) :
    (q.closeFds fds).files = p.files ∧ (q.closeFds fds).ns = p.ns :=
  ⟨funext fun d => (closeFds_files fds q d).trans (h.files_eq d), (closeFds_ns fds q).trans h.ns⟩

/-- One more descriptor, at the end of the list. -/
theorem Extends.install {fds : List Int} (h : Extends p q fds) {fd : Nat} {f : File}
    (hfree : q.files fd = none) (hlt : fd < q.limit) :
    Extends p (q.skip.setFile fd (some f)) (fds ++ [(fd : Int)]) := by
  have hnot : (fd : Int) ∉ fds := by
    intro hmem
    apply (h.fresh _ hmem).2
    rw [file_natCast, hfree]
  have hold : p.files fd = none := by rw [← h.others fd hnot, hfree]
  refine ⟨?_, ?_, ?_, fun d hd => ?_, h.ns⟩
  · intro c hc
    rcases List.mem_append.mp hc with hc | hc
    · obtain ⟨hc₁, hc₂⟩ := h.fresh c hc
      refine ⟨hc₁, ?_⟩
      rwa [file_made hfree hc₂]
    · obtain rfl := List.mem_singleton.mp hc
      rw [file_natCast, file_natCast, setFile_files, Function.update_self, hold]
      simp
  · intro c hc
    rcases List.mem_append.mp hc with hc | hc
    · exact h.small c hc
    · rw [List.mem_singleton.mp hc]
      exact_mod_cast hlt
  · rw [List.nodup_append]
    refine ⟨h.nodup, List.pairwise_singleton _ _, ?_⟩
    intro a ha b hb heq
    rw [List.mem_singleton.mp hb] at heq
    exact hnot (heq ▸ ha)
  · have hd' : d ≠ fd := by
      intro heq
      apply hd
      simp [heq]
    rw [setFile_files, Function.update_of_ne hd']
    exact h.others d fun hmem => hd (List.mem_append_left _ hmem)

/-- A duplicate and what it is one of. -/
def SameFile (q : Process) (clone fd : Int) : Prop := q.file clone = q.file fd ∧ q.file fd ≠ none

/-- What is said about the descriptors of a table stays true when one more is made. -/
theorem SameFile.install {fd : Nat} {f : File} {clone of : Int} (h : SameFile q clone of)
    (hfree : q.files fd = none) : SameFile (q.skip.setFile fd (some f)) clone of := by
  obtain ⟨hsame, hopen⟩ := h
  have hclone : q.file clone ≠ none := by rwa [hsame]
  unfold SameFile
  rw [file_made hfree hclone, file_made hfree hopen]
  exact ⟨hsame, hopen⟩

theorem cloneLoop_spec (fin : List Int) : ∀ {q : Process} {fclones done : List Int},
    Extends p q fclones → List.Forall₂ (SameFile q) fclones done →
    match q.cloneLoop fclones fin with
    | (none, r) => r.files = p.files ∧ r.ns = p.ns
    | (some clones, r) => Extends p r clones ∧ List.Forall₂ (SameFile r) clones (done ++ fin) := by
  induction fin with
  | nil =>
    intro q fclones done hext hsame
    rw [List.append_nil]
    exact ⟨hext, hsame⟩
  | cons fd fin ih =>
    intro q fclones done hext hsame
    rw [cloneLoop, dup]
    rcases install_cases q (q.file fd) with hfail | ⟨n, f, hf, hfree, hok⟩
    · rw [hfail]
      exact hext.skip.closeFds
    · rw [hok]
      dsimp only
      rw [if_neg (by omega)]
      have hnew : SameFile (q.skip.setFile n (some f)) n fd := by
        have hfd : q.file fd ≠ none := by
          rw [hf]
          simp
        unfold SameFile
        rw [file_made hfree hfd, file_natCast, setFile_files, Function.update_self, hf]
        simp
      have hall : List.Forall₂ (SameFile (q.skip.setFile n (some f))) (fclones ++ [(n : Int)])
          (done ++ [fd]) :=
        List.rel_append (hsame.imp fun _ _ h => h.install hfree) (.cons hnew .nil)
      have hrest := ih (hext.install hfree (install_ok hok).2 (f := f)) hall
      rwa [List.append_assoc] at hrest

/-- Either all descriptors are duplicated, each by one that was free before, or the table is as
before. -/
theorem clone_fds_all_or_nothing (p : Process) (fin : List Int) :
    match p.stdFileCloneFds fin with
    | (none, q) => q.files = p.files ∧ q.ns = p.ns
    | (some clones, q) => Extends p q clones ∧ List.Forall₂ (SameFile q) clones fin :=
  cloneLoop_spec fin (.refl p) .nil

/-- One call was made for each descriptor, and none of them failed. -/
theorem cloneLoop_failures (fin : List Int) : ∀ {q r : Process} {fclones clones : List Int},
    q.cloneLoop fclones fin = (some clones, r) →
    r.failures = q.failures.drop fin.length ∧
      ∀ i < fin.length, q.failures[i]? ≠ some true := by
  induction fin with
  | nil =>
    intro q r fclones clones h
    cases h
    exact ⟨rfl, by simp⟩
  | cons fd fin ih =>
    intro q r fclones clones h
    rw [cloneLoop, dup] at h
    rcases install_cases q (q.file fd) with hfail | ⟨n, f, -, -, hok⟩
    · rw [hfail] at h
      cases h
    · have hmade := install_ok hok
      have hleft : (q.install (q.file fd)).2.failures = q.failures.drop 1 := install_failures q _
      rw [hok] at h hleft
      dsimp only at h hleft
      rw [if_neg (by omega)] at h
      obtain ⟨hdrop, hcalls⟩ := ih h
      rw [hleft] at hdrop hcalls
      refine ⟨by rw [hdrop, List.drop_drop, List.length_cons, Nat.add_comm], fun i hi => ?_⟩
      cases i with
      | zero => simpa [List.head?_eq_getElem?] using hmade.1
      | succ i =>
        have hcall := hcalls i (by simpa using hi)
        rwa [List.getElem?_drop, Nat.add_comm] at hcall

/-- Only what is open can be duplicated. -/
theorem clone_head_open {fd : Int} {fin clones : List Int}
    (h : p.stdFileCloneFds (fd :: fin) = (some clones, q)) : p.file fd ≠ none := by
  intro hnone
  rw [stdFileCloneFds, cloneLoop, dup, hnone] at h
  rcases install_cases p none with hfail | ⟨n, f, hf, -⟩
  · rw [hfail] at h
    simp at h
  · cases hf

/-! ## Standard input and output -/

section Redirect

variable {r : Process} {fd ofd0 ofd1 : Int} {f : File}

/-- When standard output cannot be redirected, only standard input can be left different, and that
only when the kernel does not let it be put back. -/
theorem put_back (hext : Extends p r [ofd0, ofd1]) (h0 : SameFile r ofd0 0)
    (hopen : p.files 0 ≠ none) (hlimit : 0 < r.limit) :
    let s := (r.skip.setFile 0 (some f)).skip
    let t := (s.dup2 ofd0 0).2.closeFds [ofd0, ofd1]
    (∀ d, d ≠ 0 → t.files d = p.files d) ∧
      (t.files 0 = p.files 0 ∨ r.failures[2]? = some true) := by
  intro s t
  obtain ⟨g, hg⟩ := Option.ne_none_iff_exists'.mp h0.2
  obtain ⟨n, rfl, hn⟩ := exists_of_file (h0.1.trans hg)
  have hn0 : n ≠ 0 := by
    rintro rfl
    exact hopen (hext.fresh _ List.mem_cons_self).1
  -- the duplicate still refers to what standard input did
  have hsaved : s.file n = some g := by
    rw [file_natCast, skip_files, setFile_files, Function.update_of_ne hn0, skip_files, hn]
  rcases dup2_cases s n 0 with hlost | ⟨g', hg', -, hback⟩
  · refine ⟨fun d hd => ?_, .inr ?_⟩
    · rw [closeFds_files, ← hext.files_eq d, hlost]
      simp [s, Function.update_of_ne hd]
    · have hcall := dup2_failed hsaved hlimit hlost
      simpa [s, List.head?_drop] using hcall
  · obtain rfl := Option.some.inj (hg'.symm.trans hsaved)
    have hfiles : ∀ d, t.files d = p.files d := by
      intro d
      rw [closeFds_files, ← hext.files_eq d, hback]
      by_cases hd : d = 0
      · subst hd
        have hg0 : r.files 0 = some g' := (file_natCast r 0).symm.trans hg
        rw [setFile_files, Function.update_self, hg0]
      · simp [s, Function.update_of_ne hd]
    exact ⟨fun d _ => hfiles d, .inl (hfiles 0)⟩

/-- When both could be redirected, they refer to what `fd` does if that was open and standard
output was; else one of the duplicates was taken for one of them. -/
theorem redirected (hext : Extends p r [ofd0, ofd1]) (h1 : SameFile r ofd1 1)
    (hopen : p.files 0 ≠ none) (hf : r.file fd = some f) :
    let t := ((r.skip.setFile 0 (some f)).skip.setFile 1 (some f)).closeFds [ofd0, ofd1]
    (∀ d, 2 ≤ d → t.files d = p.files d) ∧
      (t.files 0 = p.file fd ∧ t.files 1 = p.file fd ↔ p.file fd ≠ none ∧ p.files 1 ≠ none) := by
  intro t
  have hzero : ((0 : Nat) : Int) ∉ [ofd0, ofd1] := fun hmem => hopen (hext.fresh _ hmem).1
  have hin : t.files 0 = some f := by
    rw [closeFds_files, if_neg hzero, setFile_files, Function.update_of_ne (by decide), skip_files,
      setFile_files, Function.update_self]
  have hout : t.files 1 = if ((1 : Nat) : Int) ∈ [ofd0, ofd1] then none else some f := by
    rw [closeFds_files, setFile_files, Function.update_self]
  refine ⟨fun d hd => ?_, fun ⟨h, h'⟩ => ?_, fun ⟨hfd, hone⟩ => ?_⟩
  · have hd0 : d ≠ 0 := by omega
    have hd1 : d ≠ 1 := by omega
    rw [closeFds_files, ← hext.files_eq d]
    simp [Function.update_of_ne hd0, Function.update_of_ne hd1]
  · rw [hin] at h
    rw [hout] at h'
    rw [← h] at h' ⊢
    split_ifs at h' with hmem
    rw [← hext.others 1 hmem]
    exact ⟨by simp, h1.2⟩
  · have hnot : fd ∉ [ofd0, ofd1] := fun hmem => hfd (hext.fresh _ hmem).1
    have hmem : ((1 : Nat) : Int) ∉ [ofd0, ofd1] := fun hmem => hone (hext.fresh _ hmem).1
    rw [hin, hout, if_neg hmem, ← hext.file_eq hnot, hf]
    exact ⟨rfl, rfl⟩

end Redirect

/-- The duplicate of an open standard input takes another number, so there is more than one. -/
theorem one_lt_limit {r : Process} {ofd0 : Int} {ofds : List Int}
    (hext : Extends p r (ofd0 :: ofds)) (hopen : p.files 0 ≠ none) : 1 < r.limit := by
  obtain ⟨hfree, hmade⟩ := hext.fresh ofd0 List.mem_cons_self
  obtain ⟨f, hf⟩ := Option.ne_none_iff_exists'.mp hmade
  obtain ⟨n, rfl, -⟩ := exists_of_file hf
  have hlt : n < r.limit := by exact_mod_cast hext.small n List.mem_cons_self
  have hn : n ≠ 0 := by
    rintro rfl
    exact hopen hfree
  omega

/-- Standard input and output refer to what `fd` does exactly when that and standard output were
open. On an error they refer to what they did, unless standard input was redirected, standard output
could not be and the third `dup2`, which puts standard input back, fails as well; the other
descriptors are never touched. -/
theorem stdoutin_redirected (p : Process) (fd : Int) :
    match p.stdRedirStdoutin fd with
    | (true, q) =>
      q.ns = p.ns ∧ (∀ d, 2 ≤ d → q.files d = p.files d) ∧
        (q.files 0 = p.file fd ∧ q.files 1 = p.file fd ↔ p.file fd ≠ none ∧ p.files 1 ≠ none)
    | (false, q) =>
      q.ns = p.ns ∧ (∀ d, d ≠ 0 → q.files d = p.files d) ∧
        (q.files 0 = p.files 0 ∨ (∀ i < 3, p.failures[i]? ≠ some true) ∧
          p.failures[3]? = some true ∧ p.failures[4]? = some true) := by
  have hclone := clone_fds_all_or_nothing p [0, 1]
  rcases hres : p.stdFileCloneFds [0, 1] with ⟨clones, r⟩
  rw [hres] at hclone
  unfold stdRedirStdoutin
  rw [hres]
  cases clones with
  | none => exact ⟨hclone.2, fun d _ => by rw [hclone.1], .inl (by rw [hclone.1])⟩
  | some clones =>
    obtain ⟨hext, hsame⟩ := hclone
    obtain _ | ⟨h0, _ | ⟨h1, _ | _⟩⟩ := hsame
    rename_i ofd0 ofd1
    have hopen : p.files 0 ≠ none := clone_head_open hres
    obtain ⟨hscript, hcalls⟩ := cloneLoop_failures [0, 1] hres
    have hscript : r.failures = p.failures.drop 2 := hscript
    dsimp only
    rcases dup2_cases r fd 0 with hfail | ⟨f, hf, hlimit, hok⟩
    · rw [hfail]
      dsimp only
      obtain ⟨hfiles, hns⟩ := hext.skip.closeFds
      exact ⟨hns, fun d _ => by rw [hfiles], .inl (by rw [hfiles])⟩
    · rw [hok]
      dsimp only
      rcases dup2_cases (r.skip.setFile 0 (some f)) fd 1 with hfail | ⟨f', hf', -, hok'⟩
      · have hthird := dup2_call hok
        have hstill : ∃ g, (r.skip.setFile 0 (some f)).file fd = some g := by
          obtain ⟨m, rfl, hm⟩ := exists_of_file hf
          rw [file_natCast, setFile_files, Function.update_apply, skip_files, hm]
          exact ⟨f, ite_self _⟩
        obtain ⟨g, hg⟩ := hstill
        have hfourth := dup2_failed hg (by simpa using one_lt_limit hext hopen) hfail
        rw [hfail]
        obtain ⟨hothers, hback⟩ := put_back (f := f) hext h0 hopen hlimit
        rw [hscript, List.getElem?_drop] at hback
        rw [hscript, List.head?_drop] at hthird
        rw [setFile_failures, skip_failures, hscript, List.drop_drop, List.head?_drop] at hfourth
        refine ⟨by simp [hext.ns], hothers, hback.imp_right fun hfifth => ⟨?_, hfourth, hfifth⟩⟩
        intro i hi
        rcases Nat.lt_succ_iff_lt_or_eq.mp hi with hi | rfl
        · exact hcalls i hi
        · exact hthird
      · rw [hok']
        have hff : f' = f := by
          obtain ⟨m, rfl, hm⟩ := exists_of_file hf
          rw [file_natCast, setFile_files, Function.update_apply, skip_files, hm] at hf'
          split_ifs at hf' <;> exact (Option.some.inj hf').symm
        subst hff
        exact ⟨by simp [hext.ns], redirected hext h1 hopen hf⟩

-- The duplicate of standard input takes the number of a closed standard output, and is closed.
example :
    let p : Process :=
      { limit := 8, files := fun d => if d = 0 ∨ d = 5 then some (.given d) else none, ns := 0,
        leader := none, named := fun _ => none, failures := [] }
    (p.stdRedirStdoutin 5).1 = true ∧ (p.stdRedirStdoutin 5).2.files 1 = none := by
  decide

end OpxCommonUtils.Io.Process
