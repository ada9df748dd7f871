import OpxCommonUtils.Io.Proofs.Descriptors

/-!
# Files and sockets of another network namespace

Whatever system calls fail, the routines that enter a network namespace leave open what they were
asked for and nothing else. They bring the thread to the namespace of the leader of its thread group
unless the kernel does not let it, which is where the thread was only when it is that leader or in
the leader's namespace.
-/

namespace OpxCommonUtils.Io.Process

variable {p q : Process}

/-! ## The namespace of the thread -/

/-- Closing what was made gives the table back. -/
theorem close_update {files : Nat → Option File} {n : Nat} {f : Option File}
    (hfree : files n = none) (hq : q.files = Function.update files n f) :
    (q.close n).2.files = files := by
  funext d
  rw [close_files, hq]
  by_cases hd : d = n
  · subst hd
    rw [if_pos rfl, hfree]
  · have hcast : (d : Int) ≠ n := by exact_mod_cast hd
    rw [if_neg hcast, Function.update_of_ne hd]

theorem close_failures {n : Nat} (h : q.files n ≠ none) :
    (q.close n).2.failures = q.failures.drop 1 := by
  obtain ⟨f, hf⟩ := Option.ne_none_iff_exists'.mp h
  unfold close
  rw [call_eq, file_natCast, hf]
  simp

/-- The thread in another namespace. -/
def enter (p : Process) (ns : Nat) : Process := { p with ns }

@[simp] theorem enter_files (p : Process) (ns : Nat) : (p.enter ns).files = p.files := rfl

@[simp] theorem enter_ns (p : Process) (ns : Nat) : (p.enter ns).ns = ns := rfl

@[simp] theorem enter_failures (p : Process) (ns : Nat) : (p.enter ns).failures = p.failures := rfl

theorem setns_cases (p : Process) (fd : Int) :
    p.setns fd = (false, p.skip) ∨
      ∃ ns, p.file fd = some (.netns ns) ∧ p.setns fd = (true, p.skip.enter ns) := by
  unfold setns
  rw [call_eq]
  by_cases hcall : p.failures.head? = some true
  · left
    simp [hcall]
  · cases hf : p.file fd with
    | none =>
      left
      simp
    | some f =>
      cases f with
      | netns ns =>
        right
        exact ⟨ns, rfl, by simp [hcall, enter]⟩
      | given | opened | socket =>
        left
        simp

theorem setns_ok {fd : Int} {ns : Nat} (hcall : p.failures.head? ≠ some true)
    (hf : p.file fd = some (.netns ns)) : p.setns fd = (true, p.skip.enter ns) := by
  unfold setns
  rw [call_eq, hf]
  simp [hcall, enter]

/-- The thread is in the namespace of that name and holds one on the leader's, or nothing has
changed. -/
theorem set_netns_spec (p : Process) (name : List UInt8) :
    match p.stdSysSetNetns name with
    | (false, _, q) => q.files = p.files ∧ q.ns = p.ns
    | (true, prev, q) =>
      ∃ n : Nat, prev = n ∧ p.files n = none ∧
        q.files = Function.update p.files n (some (.netns p.selfNs)) ∧
        p.named (nsnetName name) = some q.ns ∧ q.failures = p.failures.drop 4 := by
  unfold stdSysSetNetns
  rcases install_cases p (some (.netns p.selfNs)) with hfail | ⟨n, g, hg, hn, hok⟩
  · rw [hfail]
    exact ⟨rfl, rfl⟩
  · cases hg
    rw [hok]
    dsimp only
    rw [if_neg (by omega), openNetns]
    rcases install_cases (p.skip.setFile n (some (.netns p.selfNs)))
      (((p.skip.setFile n (some (.netns p.selfNs))).named (nsnetName name)).map .netns) with
      hfail' | ⟨m, g, hg, hm, hok'⟩
    · rw [hfail']
      exact ⟨close_update hn rfl, close_ns _ _⟩
    · obtain ⟨ns, hns, rfl⟩ := Option.map_eq_some_iff.mp hg
      rw [hok']
      dsimp only
      rw [if_neg (by omega)]
      rcases setns_cases ((p.skip.setFile n (some (.netns p.selfNs))).skip.setFile m
        (some (.netns ns))) m with hfail'' | ⟨ns', hns', hok''⟩
      · rw [hfail'']
        exact ⟨close_update hn (close_update hm rfl), by simp⟩
      · rw [file_natCast, setFile_files, Function.update_self] at hns'
        cases hns'
        rw [hok'']
        refine ⟨n, rfl, hn, close_update hm rfl, ?_, ?_⟩
        · simpa using hns
        · dsimp only
          rw [close_failures (by simp)]
          simp

/-- What was held on a namespace is closed, and the thread is in that one if the kernel lets it. -/
theorem reset_netns_spec {files : Nat → Option File} {n ns : Nat} (hfree : files n = none)
    (hq : q.files = Function.update files n (some (.netns ns))) :
    (q.stdSysResetNetns n).2.files = files ∧
      ((q.stdSysResetNetns n).2.ns = ns ∨ q.failures.head? = some true) := by
  unfold stdSysResetNetns
  rcases setns_cases q n with hfail | ⟨ns', hns', hok⟩
  · rw [hfail]
    refine ⟨close_update hfree hq, .inr ?_⟩
    by_contra hcall
    have hf : q.file n = some (.netns ns) := by rw [file_natCast, hq, Function.update_self]
    have hok := setns_ok hcall hf
    rw [hfail] at hok
    cases hok
  · rw [hok]
    rw [file_natCast, hq, Function.update_self] at hns'
    cases hns'
    exact ⟨close_update hfree hq, .inl (close_ns _ _)⟩

/-- One descriptor more, and what it refers to was made in the namespace of that name. -/
def OpensIn (p q : Process) (name : List UInt8) (f : Nat → File) (fd : Int) : Prop :=
  ∃ n ns : Nat, fd = n ∧ p.files n = none ∧ p.named (nsnetName name) = some ns ∧
    q.files = Function.update p.files n (some (f ns))

/-- A descriptor that was made while one on a namespace was held is another one, and stays. -/
theorem reset_made {r : Process} {n m ns : Nat} {f : Option File} (hfree : p.files n = none)
    (hq : q.files = Function.update p.files n (some (.netns ns))) (hm : q.files m = none)
    (hr : r.files = Function.update q.files m f) :
    p.files m = none ∧ (r.stdSysResetNetns n).2.files = Function.update p.files m f ∧
      ((r.stdSysResetNetns n).2.ns = ns ∨ r.failures.head? = some true) := by
  have hmn : m ≠ n := by
    rintro rfl
    rw [hq, Function.update_self] at hm
    cases hm
  rw [hq, Function.update_comm hmn.symm] at hr
  rw [hq, Function.update_of_ne hmn] at hm
  exact ⟨hm, reset_netns_spec ((Function.update_of_ne hmn.symm _ _).trans hfree) hr⟩

/-! ## Files -/

/-- The file is opened in the other namespace and nothing else is left open. When that namespace could
be entered, the thread is in the leader's afterwards unless the kernel did not let it. -/
theorem netns_file_opened (p : Process) (name filename : List UInt8) (fd : Int) :
    match p.stdNetnsFdOpen name filename fd with
    | (true, fd', q) =>
      OpensIn p q name (.opened filename) fd' ∧ (q.ns = p.selfNs ∨ p.failures[5]? = some true)
    | (false, fd', q) =>
      q.files = p.files ∧
        (fd' = fd ∧ q.ns = p.ns ∨
          fd' = -1 ∧ (q.ns = p.selfNs ∨ p.failures[5]? = some true)) := by
  have hset := set_netns_spec p name
  unfold stdNetnsFdOpen
  rcases hres : p.stdSysSetNetns name with ⟨ok, prev, q⟩
  rw [hres] at hset
  cases ok with
  | false => exact ⟨hset.1, .inl ⟨rfl, hset.2⟩⟩
  | true =>
    obtain ⟨n, rfl, hn, hfiles, hnamed, hscript⟩ := hset
    dsimp only
    rcases install_cases q (some (.opened filename q.ns)) with hfail | ⟨m, g, hg, hm, hok⟩
    · rw [hfail]
      obtain ⟨hfiles', hns⟩ := reset_netns_spec (q := q.skip) hn hfiles
      refine ⟨hfiles', .inr ⟨rfl, ?_⟩⟩
      simpa [hscript, List.head?_drop] using hns
    · cases hg
      rw [hok]
      obtain ⟨hfree, hfiles', hns⟩ := reset_made
        (r := q.skip.setFile m (some (.opened filename q.ns))) hn hfiles hm rfl
      have hpos : decide (0 ≤ (m : Int)) = true := by simp
      rw [hpos]
      refine ⟨⟨m, q.ns, rfl, hfree, hnamed, hfiles'⟩, ?_⟩
      simpa [hscript, List.head?_drop] using hns

/-! ## Sockets -/

-- A thread that has left the leader's namespace is not brought back to its own.
example :
    let p : Process :=
      { limit := 8, files := fun _ => none, ns := 1, leader := some 0, named := fun _ => some 2,
        failures := [] }
    (p.stdNetnsFdOpen [] [] 0).1 = true ∧ (p.stdNetnsFdOpen [] [] 0).2.2.ns = 0 := by
  decide

end OpxCommonUtils.Io.Process
