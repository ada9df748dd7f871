import OpxCommonUtils.Misc.LinkTree
import OpxCommonUtils.Misc.Traced

/-!
# Printing a linked tree

A loop prints a linked tree a line a cell, the right subtree of a cell above it and the left one
below. It has a stack of its own, one entry for each cell of the path it is on, and an array
`indent` of which a cell at depth `d` prints the first `3 * d` characters before it writes the
next one. Neither array has a length here: the trace of the loop is the list of all `Access`es to
them, so that the lengths that would have been enough can be read off it (`accesses_lt_iff`).
-/

namespace OpxCommonUtils.TreePrint

open Tree Traced

/-- An index used in one of the two arrays. -/
inductive Access where
  | stack (ix : Nat)
  | indent (ix : Nat)
  deriving DecidableEq, Repr

/-- The index used. -/
def Access.ix : Access → Nat
  | .stack ix => ix
  | .indent ix => ix

@[simp] theorem Access.ix_stack (ix : Nat) : (stack ix).ix = ix := rfl

/-- What is to be done next for a cell on the stack: the states 0, 1 and 2. -/
inductive Stage where
  | right
  | line
  | done
  deriving DecidableEq, Repr

/-- An entry of the stack. -/
structure Entry where
  node : Ptr
  stage : Stage
  right : Bool
  deriving DecidableEq, Repr

/-- The variables of the loop, with the entries of the stack up to `sp`, the last one first, and
the lines printed so far, each an indent and the cell it is about. -/
structure Printer where
  stack : List Entry
  indent : Nat → UInt8
  lines : List (List UInt8 × Ptr)

/-- The variables before the loop: spaces in `indent`, and the root on the stack. -/
def Printer.init (root : Ptr) : Printer := ⟨[⟨root, .right, true⟩], fun _ => 32, []⟩

/-- The line of the cell `f`, behind the first `ii` characters of `indent`, and the character put
after them. -/
def Printer.line (s : Printer) (ii : Nat) (f : Entry) : Printer :=
  { s with
    indent := fun i => if i = ii then (if f.right then 124 else 32) else s.indent i
    lines := s.lines ++ [((List.range ii).map s.indent, f.node)] }

/-- What a printer of trees puts out below its heading. -/
inductive Printout where
  | tooLarge
  | empty
  | lines (ls : List (List UInt8 × Ptr))
  deriving DecidableEq, Repr

section Loop

variable (nul : Ptr) (child : Side → Ptr → Exec Ptr)

/-- The line of a cell, and down to the left child or back. -/
def printLine (f : Entry) (below : List Entry) (s : Printer) : Traced Access Printer := do
  let ii := below.length * 3
  emit ((List.range ii).map .indent ++ [.indent ii])
  let s := s.line ii f
  let left ← child .left f.node
  if left = nul then return { s with stack := below }
  else do
    emit [.stack (below.length + 1)]
    return { s with stack := ⟨left, .right, false⟩ :: { f with stage := .done } :: below }

/-- A round of the loop for the entry `f` at `sp`. -/
def printRound (f : Entry) (below : List Entry) (s : Printer) : Traced Access Printer := do
  emit [.stack below.length]
  match f.stage with
  | .right => do
    let right ← child .right f.node
    if right = nul then printLine nul child f below s
    else do
      emit [.stack (below.length + 1)]
      return { s with stack := ⟨right, .right, true⟩ :: { f with stage := .line } :: below }
  | .line => printLine nul child f below s
  | .done => return { s with stack := below }

/-- The loop: rounds until `sp` is below the stack. -/
def printLoop : Nat → Printer → Traced Access (List (List UInt8 × Ptr))
  | 0, _ => lift (.error .diverges)
  | fuel + 1, s =>
    match s.stack with
    | [] => return s.lines
    | f :: below => do
      let s ← printRound nul child f below s
      printLoop fuel s

/-- A printer with arrays of length `m`, for a tree of `count` cells of which it prints no more than
`limit`: spaces into `indent`, the root on the stack, and the loop. -/
def print (m limit count : Nat) (root : Ptr) (fuel : Nat) : Traced Access Printout := do
  emit ((List.range m).reverse.map .indent)
  if limit < count then return .tooLarge
  else do
    emit [.stack 0]
    if root = NULL then return .empty
    else do
      let ls ← printLoop nul child fuel (.init root)
      return .lines ls

/-- `child` leads along the links of the tree. -/
def Links {β : Type} : Tree β → Prop
  | .nil => True
  | .node p _ l r =>
    (child .left p = .ok (l.root nul) ∧ (l ≠ .nil → l.root nul ≠ nul) ∧ Links l) ∧
      child .right p = .ok (r.root nul) ∧ (r ≠ .nil → r.root nul ≠ nul) ∧ Links r

end Loop

/-! ## The accesses -/

section Accesses

variable {β : Type}

/-- The accesses for the line of a cell at depth `d`. -/
def lineAccesses (d : Nat) : List Access := (List.range (d * 3)).map .indent ++ [.indent (d * 3)]

/-- The accesses of the way from a cell at depth `d` into a subtree and back. -/
def visit (d : Nat) : Tree β → List Access → List Access
  | .nil, _ => []
  | .node .., es => .stack (d + 1) :: (es ++ [.stack d])

/-- The accesses for a subtree at depth `d`. -/
def accesses : Nat → Tree β → List Access
  | _, .nil => []
  | d, .node _ _ l r =>
    .stack d :: (visit d r (accesses (d + 1) r) ++
      (lineAccesses d ++ visit d l (accesses (d + 1) l)))

theorem lineAccesses_lt_iff {d m : Nat} : (∀ a ∈ lineAccesses d, a.ix < m) ↔ d * 3 < m := by
  constructor
  · intro h
    exact h (.indent (d * 3)) (by simp [lineAccesses])
  · intro h a ha
    simp only [lineAccesses, List.mem_append, List.mem_map, List.mem_range,
      List.mem_singleton] at ha
    rcases ha with ⟨i, hi, rfl⟩ | rfl
    · exact hi.trans h
    · exact h

/-- Arrays of length `m` are enough for a subtree when its lowest cell finds the place after its
indent. -/
theorem accesses_lt_iff {t : Tree β} (hne : t ≠ .nil) {m : Nat} (d : Nat) :
    (∀ a ∈ accesses d t, a.ix < m) ↔ (d + t.height) * 3 < m + 3 := by
  induction t generalizing d with
  | nil => exact absurd rfl hne
  | node p v l r ihl ihr =>
    have hvisit : ∀ {c : Tree β},
        (c ≠ .nil → ∀ d, (∀ a ∈ accesses d c, a.ix < m) ↔ (d + c.height) * 3 < m + 3) →
        d * 3 < m →
        ((∀ a ∈ visit d c (accesses (d + 1) c), a.ix < m) ↔
          (d + 1 + c.height) * 3 < m + 3) := by
      intro c ih hd
      cases c with
      | nil => simp [visit, height]; omega
      | node q w a b =>
        have hc := ih (by simp) (d + 1)
        have hpos : 0 < (node q w a b).height := Nat.succ_pos _
        simp only [visit, List.forall_mem_cons, List.forall_mem_append, List.not_mem_nil,
          false_implies, implies_true, and_true, Access.ix_stack, hc]
        omega
    simp only [accesses, List.forall_mem_cons, List.forall_mem_append, lineAccesses_lt_iff,
      Access.ix_stack]
    by_cases hd : d * 3 < m
    · rw [hvisit ihl hd, hvisit ihr hd]
      simp only [height]
      omega
    · simp only [height, hd, false_and, and_false, false_iff]
      omega

end Accesses

/-! ## The loop -/

section Run

variable {nul : Ptr} {child : Side → Ptr → Exec Ptr} {β : Type}

/-- The cells of the lines printed so far. -/
def Printer.nodes (s : Printer) : List Ptr := s.lines.map Prod.snd

variable (nul child) in
/-- In `n` rounds, with the accesses `es`, the loop comes from `s` to `s'`. -/
def Leads (s : Printer) (n : Nat) (es : List Access) (s' : Printer) : Prop :=
  ∀ fuel, printLoop nul child (fuel + n) s = (printLoop nul child fuel s').after es

theorem Leads.trans {s s' s'' : Printer} {m n : Nat} {es es' : List Access}
    (h : Leads nul child s m es s') (h' : Leads nul child s' n es' s'') :
    Leads nul child s (n + m) (es ++ es') s'' := by
  intro fuel
  rw [← Nat.add_assoc, h, h', after_after]

theorem Leads.round {s s' : Printer} {f : Entry} {below : List Entry} {es : List Access}
    (hs : s.stack = f :: below)
    (h : printRound nul child f below s = Traced.after es (pure s')) :
    Leads nul child s 1 es s' := by
  intro fuel
  rw [printLoop, hs]
  change (printRound nul child f below s >>= fun s => printLoop nul child fuel s) = _
  rw [h, pure_after_bind]

variable (nul child) in
/-- From the root of the subtree on top of the stack the loop comes to the entry below it, having
printed the cells of the subtree from the last to the first. -/
def Printed (t : Tree β) : Prop :=
  ∀ (s : Printer) (right : Bool) (below : List Entry),
    s.stack = ⟨t.root nul, .right, right⟩ :: below →
    ∃ n s', n < 2 * t.size ∧ s'.stack = below ∧
      s'.nodes = s.nodes ++ (t.ino.map Prod.fst).reverse ∧
      Leads nul child s n (accesses below.length t) s'

theorem printLine_nil {f : Entry} {below : List Entry} {s : Printer}
    (hleft : child .left f.node = .ok ((nil : Tree β).root nul)) :
    printLine nul child f below s = Traced.after (lineAccesses below.length)
      (pure { s.line (below.length * 3) f with stack := below }) := by
  rw [printLine, hleft]
  simp only [emit_bind, monadLift_ok_bind, root_nil, if_true]
  rfl

theorem printLine_child {f : Entry} {below : List Entry} {s : Printer} {left : Ptr}
    (hleft : child .left f.node = .ok left) (hne : left ≠ nul) :
    printLine nul child f below s =
      Traced.after (lineAccesses below.length ++ [.stack (below.length + 1)])
        (pure { s.line (below.length * 3) f with
          stack := ⟨left, .right, false⟩ :: { f with stage := .done } :: below }) := by
  rw [printLine, hleft]
  simp only [emit_bind, monadLift_ok_bind, if_neg hne, after_after]
  rfl

theorem printRound_last {p : Ptr} {right : Bool} {below : List Entry} {s : Printer}
    (hright : child .right p = .ok ((nil : Tree β).root nul)) :
    printRound nul child ⟨p, .right, right⟩ below s =
      (printLine nul child ⟨p, .right, right⟩ below s).after [.stack below.length] := by
  simp only [printRound, hright, emit_bind, monadLift_ok_bind, root_nil, if_true]

theorem printRound_child {p q : Ptr} {right : Bool} {below : List Entry} {s : Printer}
    (hright : child .right p = .ok q) (hne : q ≠ nul) :
    printRound nul child ⟨p, .right, right⟩ below s =
      Traced.after [.stack below.length, .stack (below.length + 1)]
        (pure { s with stack := ⟨q, .right, true⟩ :: ⟨p, .line, right⟩ :: below }) := by
  simp only [printRound, hright, emit_bind, monadLift_ok_bind, if_neg hne, after_after]
  rfl

/-- The rest of the work for a cell, once its right subtree is printed. -/
theorem line_leads {f : Entry} {below : List Entry} {s : Printer} {l : Tree β}
    (hs : s.stack = f :: below)
    (hround : printRound nul child f below s =
      (printLine nul child f below s).after [.stack below.length])
    (hleft : child .left f.node = .ok (l.root nul)) (hroot : l ≠ .nil → l.root nul ≠ nul)
    (hl : l ≠ .nil → Printed nul child l) :
    ∃ n s', n ≤ 2 * l.size + 1 ∧ s'.stack = below ∧
      s'.nodes = s.nodes ++ f.node :: (l.ino.map Prod.fst).reverse ∧
      Leads nul child s n (.stack below.length :: (lineAccesses below.length ++
        visit below.length l (accesses (below.length + 1) l))) s' := by
  cases l with
  | nil =>
    have hnodes : (s.line (below.length * 3) f).nodes = s.nodes ++ [f.node] := by
      simp [Printer.nodes, Printer.line]
    refine ⟨1, { s.line (below.length * 3) f with stack := below }, by omega, rfl, hnodes,
      Leads.round hs ?_⟩
    rw [hround, printLine_nil hleft, after_after, visit, List.append_nil]
    rfl
  | node q w a b =>
    obtain ⟨n, s', hn, hstack, hnodes, hlead⟩ := hl (by simp)
      { s.line (below.length * 3) f with
        stack := ⟨q, .right, false⟩ :: { f with stage := .done } :: below } false _ rfl
    have hdown := Leads.round hs (hround.trans
      ((congrArg _ (printLine_child hleft (hroot (by simp)))).trans (after_after _ _ _)))
    have hup : Leads nul child s' 1 [.stack below.length] { s' with stack := below } :=
      Leads.round hstack rfl
    refine ⟨1 + n + 1, { s' with stack := below }, by omega, rfl, ?_, ?_⟩
    · change s'.nodes = _
      rw [hnodes]
      simp [Printer.nodes, Printer.line]
    · have hall := hdown.trans (hlead.trans hup)
      rw [List.append_assoc, List.append_assoc] at hall
      exact hall
/-- From the root of a subtree the loop comes back with the subtree printed. -/
theorem Links.printed {t : Tree β} (ht : Links nul child t) (hne : t ≠ .nil) :
    Printed nul child t := by
  induction t with
  | nil => exact absurd rfl hne
  | node p v l r ihl ihr =>
    obtain ⟨⟨hleft, hlroot, hlinksl⟩, hright, hrroot, hlinksr⟩ := ht
    intro s right below hs
    cases r with
    | nil =>
      obtain ⟨n, s', hn, hstack, hnodes, hlead⟩ :=
        line_leads hs (printRound_last hright) hleft hlroot (ihl hlinksl)
      refine ⟨n, s', ?_, hstack, ?_, hlead⟩
      · simp only [size]
        omega
      · rw [hnodes]
        simp [ino]
    | node q w a b =>
      have hdown : Leads nul child s 1 [.stack below.length, .stack (below.length + 1)]
          { s with stack := ⟨q, .right, true⟩ :: ⟨p, .line, right⟩ :: below } :=
        Leads.round hs (printRound_child hright (hrroot (by simp)))
      obtain ⟨n, s₁, hn, hstack₁, hnodes₁, hlead⟩ := ihr hlinksr (by simp)
        { s with stack := ⟨q, .right, true⟩ :: ⟨p, .line, right⟩ :: below } true _ rfl
      obtain ⟨n', s', hn', hstack, hnodes, hlead'⟩ :=
        line_leads hstack₁ rfl hleft hlroot (ihl hlinksl)
      refine ⟨n' + n + 1, s', ?_, hstack, ?_, ?_⟩
      · simp only [size] at hn ⊢
        omega
      · rw [hnodes, hnodes₁]
        simp [Printer.nodes, ino]
      · have hall := hdown.trans (hlead.trans hlead')
        rw [List.append_cons] at hall
        exact hall

/-- The loop prints every cell once, from the last to the first. -/
theorem Links.printLoop_eq {t : Tree β} (ht : Links nul child t) (hne : t ≠ .nil) {fuel : Nat}
    (hfuel : 2 * t.size ≤ fuel) :
    ∃ lines, lines.map Prod.snd = (t.ino.map Prod.fst).reverse ∧
      printLoop nul child fuel (.init (t.root nul)) = ⟨accesses 0 t, .ok lines⟩ := by
  obtain ⟨n, s', hn, hstack, hnodes, hlead⟩ := ht.printed hne (.init (t.root nul)) true [] rfl
  obtain ⟨more, rfl⟩ := Nat.exists_eq_add_of_le (hn.trans_le hfuel)
  refine ⟨s'.lines, hnodes, ?_⟩
  rw [show n.succ + more = (more + 1) + n by omega, hlead, printLoop, hstack]
  change (⟨accesses 0 t ++ [], .ok s'.lines⟩ : Traced Access _) = _
  rw [List.append_nil]

/-- The indices used are inside arrays of length `m`. -/
def InArrays {α : Type} (m : Nat) (x : Traced Access α) : Prop := x.All fun a => a.ix < m

variable {m limit count fuel : Nat}

/-- The accesses before the loop are inside the arrays. -/
theorem print_iff {root : Ptr} (hm : 0 < m) (hcount : count ≤ limit) :
    InArrays m (print nul child m limit count root fuel) ↔
      (root ≠ NULL → InArrays m (printLoop nul child fuel (.init root))) := by
  have hfill : ∀ a ∈ (List.range m).reverse.map Access.indent, a.ix < m := by
    intro a ha
    obtain ⟨i, hi, rfl⟩ := List.mem_map.mp ha
    exact List.mem_range.mp (List.mem_reverse.mp hi)
  have hroot : ∀ a ∈ [Access.stack 0], a.ix < m := by
    simpa using hm
  rw [InArrays, print, emit_bind, all_after, if_neg hcount.not_gt, emit_bind, all_after,
    and_iff_right hfill, and_iff_right hroot]
  split
  · rename_i hnull
    simp [hnull]
  · rename_i hnull
    rw [all_bind]
    simp [InArrays, hnull]

/-- A printer stays inside its arrays just when the tree it prints is low enough. -/
theorem Links.print_iff {t : Tree β} (ht : Links nul child t) (hne : t ≠ .nil) (hm : 0 < m)
    (hcount : count ≤ limit) (hroot : t.root nul ≠ NULL) (hfuel : 2 * t.size ≤ fuel) :
    InArrays m (print nul child m limit count (t.root nul) fuel) ↔ t.height * 3 < m + 3 := by
  obtain ⟨ls, -, hloop⟩ := ht.printLoop_eq hne hfuel
  have hiff := accesses_lt_iff hne (m := m) 0
  rw [Nat.zero_add] at hiff
  rw [TreePrint.print_iff hm hcount, hloop, ← hiff]
  exact ⟨fun h => h hroot, fun h _ => h⟩

/-- A printer prints every cell of its tree, from the last to the first. -/
theorem Links.print_lines {t : Tree β} (ht : Links nul child t) (hne : t ≠ .nil)
    (hcount : count ≤ limit) (hroot : t.root nul ≠ NULL) (hfuel : 2 * t.size ≤ fuel) :
    ∃ ls, (print nul child m limit count (t.root nul) fuel).result = .ok (.lines ls) ∧
      ls.map Prod.snd = (t.ino.map Prod.fst).reverse := by
  obtain ⟨ls, hls, hloop⟩ := ht.printLoop_eq hne hfuel
  refine ⟨ls, ?_, hls⟩
  rw [print, if_neg hcount.not_gt, if_neg hroot, hloop]
  rfl

end Run

/-! ## Trees in a heap -/

/-- In a heap that holds a tree `child` leads along its links when it reads the cells. -/
theorem links_of_rep {N β : Type} [NodeLayout N β] {child : Side → Ptr → Exec Ptr} {h : Heap N}
    (hchild : ∀ {p l r par : Ptr} {v : β}, h.get p = some (NodeLayout.cell l r par v) →
      child .left p = .ok l ∧ child .right p = .ok r)
    {par : Ptr} {t : Tree β} (ht : LinkTree.Rep h par t) : Links (LinkTree.nul N) child t := by
  have hroot : ∀ {par : Ptr} {t : Tree β}, LinkTree.Rep h par t → t ≠ .nil →
      t.root (LinkTree.nul N) ≠ LinkTree.nul N := by
    intro par t ht hne
    cases t with
    | nil => exact absurd rfl hne
    | node p v l r => exact ht.1
  induction t generalizing par with
  | nil => trivial
  | node p v l r ihl ihr =>
    obtain ⟨-, hget, hl, hr⟩ := ht
    obtain ⟨hleft, hright⟩ := hchild hget
    exact ⟨⟨hleft, hroot hl, ihl hl⟩, hright, hroot hr, ihr hr⟩

end OpxCommonUtils.TreePrint
