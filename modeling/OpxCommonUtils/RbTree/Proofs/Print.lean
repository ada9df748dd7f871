import OpxCommonUtils.RbTree.Print
import OpxCommonUtils.RbTree.Proofs.Lookup
import OpxCommonUtils.RbTree.Proofs.Run

/-!
# Printing a red-black tree

`std_rbtree_print` prints the nodes from the last to the first, and the sentinel when there are
none. Its arrays are long enough just for the trees in which no node lies deeper than 10.
-/

namespace OpxCommonUtils.RbTree

open Tree LinkTree TreePrint RbtreeTable TreeOp

variable {rbtt : RbtreeTable} {t t' : Tree RbVal}

theorem Shape.root_ne_NULL (h : Shape rbtt t) : rbtt.rbttRoot ≠ NULL := by
  rw [h.holds.root_eq, nul_rbtreeNode]
  cases t with
  | nil => decide
  | node p v l r => exact Shape.ptr_ne_NULL (c := []) h

/-- What is printed of a tree: of the empty one, the sentinel. -/
def shown : Tree RbVal → Tree RbVal
  | .nil => .node NIL ⟨.black, NULL⟩ .nil .nil
  | .node p v l r => .node p v l r

theorem shown_ne_nil : shown t ≠ .nil := by
  cases t <;> simp [shown]

/-- The loop starts at the root of what is shown and follows its links. -/
theorem Sound.links_shown (hs : Sound rbtt t') (ht : Holds rbtt.nodes rbtt.rbttRoot t) :
    rbtt.rbttRoot = (shown t).root NIL ∧ (shown t).size ≤ rbtt.nodes.bound ∧
      Links NIL rbtt.child (shown t) := by
  cases t with
  | nil =>
    obtain ⟨par, hnil⟩ := hs.shape.nil
    have hbound := rbtt.nodes.length_le_bound [NIL] (by simp) (by simp [hnil])
    have hchild : ∀ s, rbtt.child s NIL = .ok NIL := by
      intro s
      rw [child, Heap.deref_ok hnil]
      cases s <;> rfl
    exact ⟨ht.root_eq, hbound, ⟨hchild _, absurd rfl, trivial⟩, hchild _, absurd rfl,
      trivial⟩
  | node p v l r =>
    refine ⟨ht.root_eq, ht.size_le, links_of_rep (fun hget => ?_) ht.rep⟩
    rw [child, child, Heap.deref_ok hget]
    exact ⟨rfl, rfl⟩

theorem Sound.print_eq (hs : Sound rbtt t') :
    rbtt.stdRbtreePrint =
      print NIL rbtt.child MAXDEPTH 200 rbtt.rbttNuminodes rbtt.rbttRoot
        (2 * rbtt.nodes.bound + 1) := by
  rw [stdRbtreePrint, validateHandle_ok hs.magic]
  rfl

/-- Both arrays are long enough just when no node lies deeper than 10. -/
theorem Sound.print_iff (hs : Sound rbtt t') (ht : Holds rbtt.nodes rbtt.rbttRoot t)
    (hsmall : rbtt.rbttNuminodes ≤ 200) :
    InArrays MAXDEPTH rbtt.stdRbtreePrint ↔ t.height ≤ 11 := by
  obtain ⟨hroot, hsize, hlinks⟩ := hs.links_shown ht
  have hnull := hroot ▸ hs.shape.root_ne_NULL
  rw [hs.print_eq, hroot, hlinks.print_iff shown_ne_nil (by decide) hsmall hnull (by omega)]
  cases t with
  | nil => simp [shown, height, MAXDEPTH]
  | node p v l r =>
    simp only [shown, MAXDEPTH]
    omega

/-- Every node is printed, from the last to the first. -/
theorem Sound.print_lines (hs : Sound rbtt t) (hsmall : rbtt.rbttNuminodes ≤ 200) (hne : t ≠ .nil) :
    ∃ ls, rbtt.stdRbtreePrint.result = .ok (.lines ls) ∧
      ls.map Prod.snd = ((seq t).map Prod.fst).reverse := by
  obtain ⟨hroot, hsize, hlinks⟩ := hs.links_shown hs.shape.holds
  have hnull := hroot ▸ hs.shape.root_ne_NULL
  obtain ⟨ls, hprint, hls⟩ := hlinks.print_lines (m := MAXDEPTH) shown_ne_nil hsmall hnull
    (show 2 * (shown t).size ≤ 2 * rbtt.nodes.bound + 1 by omega)
  refine ⟨ls, ?_, ?_⟩
  · rw [hs.print_eq, hroot]
    exact hprint
  · rw [hls, seq, List.map_map]
    cases t with
    | nil => exact absurd rfl hne
    | node p v l r => rfl

/-! ## Runs -/

theorem sampleOps_numinodes : ∃ rbtt,
    runAll (stdRbtreeCreate compareKeys) sampleOps = .ok rbtt ∧ rbtt.rbttNuminodes = 5 := by
  have heval : (runAll (stdRbtreeCreate compareKeys) sampleOps).toOption.map rbttNuminodes =
      some 5 := by decide +kernel
  obtain ⟨rbtt, hrun, hcount⟩ := Option.map_eq_some_iff.mp heval
  exact ⟨rbtt, exec_eq_ok_of_toOption hrun, hcount⟩

/-- The insertions of `n` user nodes in increasing order. -/
def ascending (n : Nat) : List TreeOp :=
  (List.range n).map fun i => .insert .above (10 * (i + 1))

theorem ascending_nonNull (n : Nat) : NonNull (ascending n) := by
  intro op hop
  obtain ⟨i, -, rfl⟩ := List.mem_map.mp hop
  exact Nat.mul_ne_zero (by decide) (Nat.succ_ne_zero i)

/-- 126 insertions in increasing order put a node at depth 11. -/
theorem ascending_print : ∃ rbtt,
    runAll (stdRbtreeCreate compareKeys) (ascending 126) = .ok rbtt ∧ rbtt.rbttNuminodes = 126 ∧
      ¬ InArrays MAXDEPTH rbtt.stdRbtreePrint := by
  have heval : (runAll (stdRbtreeCreate compareKeys) (ascending 126)).toOption.map
      (fun rbtt => (rbtt.rbttNuminodes, rbtt.stdRbtreePrint.events.all fun a => a.ix < MAXDEPTH)) =
        some (126, false) := by decide +kernel
  obtain ⟨rbtt, hrun, heq⟩ := Option.map_eq_some_iff.mp heval
  obtain ⟨hcount, hall⟩ := Prod.mk.inj heq
  refine ⟨rbtt, exec_eq_ok_of_toOption hrun, hcount, fun hin => ?_⟩
  rw [List.all_eq_true.mpr fun a ha => decide_eq_true (hin a ha)] at hall
  cases hall

end OpxCommonUtils.RbTree
