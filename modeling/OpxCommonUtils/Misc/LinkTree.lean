import OpxCommonUtils.Misc.Heap
import Mathlib.Data.List.Perm.Basic
import Mathlib.Data.List.Nodup
import Mathlib.Tactic.ByContra

/-!
# Binary trees linked through parent pointers

A linked tree is a heap shape: every cell holds the addresses of its two children and of its
parent, and a distinguished address `nul` stands for an absent cell. `Rep` says that a heap
holds a given tree of addresses and payloads below a given parent, `CtxRep` the same of a tree
with a hole, and `rep_plug` splits a representation at any cell. Destructive algorithms are
verified by splitting at the cells they touch and framing the rest. The two sides of a cell are
a `Side`, so that an algorithm and its mirror image are one. How a representation changes when
cells are relinked is the subject of `LinkEdit`.
-/

namespace OpxCommonUtils

/-- The two child positions of a cell. -/
inductive Side where
  | left
  | right
  deriving DecidableEq, Repr

/-- The other side. -/
def Side.flip : Side → Side
  | .left => .right
  | .right => .left

@[simp] theorem Side.flip_flip (s : Side) : s.flip.flip = s := by cases s <;> rfl

@[simp] theorem Side.flip_ne (s : Side) : s.flip ≠ s := by cases s <;> decide

@[simp] theorem Side.ne_flip (s : Side) : s ≠ s.flip := by cases s <;> decide

/-- Addresses and payloads of a linked binary tree. -/
inductive Tree (β : Type) where
  | nil
  | node (p : Ptr) (v : β) (l r : Tree β)
  deriving DecidableEq, Repr

/-- One step of the path from a subtree to the root: the ancestor, the side on which the path
leaves it and the subtree on the other side. -/
structure Frame (β : Type) where
  side : Side
  ptr : Ptr
  val : β
  sib : Tree β
  deriving DecidableEq, Repr

namespace Tree

variable {β : Type}

/-- The address of the root, `nul` for the empty tree. -/
def root (nul : Ptr) : Tree β → Ptr
  | .nil => nul
  | .node p _ _ _ => p

/-- The node with `near` on side `s` and `far` on the other. -/
def join (s : Side) (p : Ptr) (v : β) (near far : Tree β) : Tree β :=
  match s with
  | .left => .node p v near far
  | .right => .node p v far near

/-- Addresses in preorder. -/
def ptrs : Tree β → List Ptr
  | .nil => []
  | .node p _ l r => p :: (l.ptrs ++ r.ptrs)

/-- Cells in preorder. -/
def pre : Tree β → List (Ptr × β)
  | .nil => []
  | .node p v l r => (p, v) :: (l.pre ++ r.pre)

/-- Cells in inorder. -/
def ino : Tree β → List (Ptr × β)
  | .nil => []
  | .node p v l r => l.ino ++ (p, v) :: r.ino

/-- The number of cells. -/
def size : Tree β → Nat
  | .nil => 0
  | .node _ _ l r => l.size + r.size + 1

/-- The number of cells on a longest path from the root. -/
def height : Tree β → Nat
  | .nil => 0
  | .node _ _ l r => max l.height r.height + 1

@[simp] theorem root_nil (nul : Ptr) : (nil : Tree β).root nul = nul := rfl

@[simp] theorem root_node (nul p : Ptr) (v : β) (l r : Tree β) : (node p v l r).root nul = p := rfl

@[simp] theorem ptrs_nil : (nil : Tree β).ptrs = [] := rfl

@[simp] theorem root_join (nul p : Ptr) (s : Side) (v : β) (near far : Tree β) :
    (join s p v near far).root nul = p := by cases s <;> rfl

@[simp] theorem join_ne_nil (s : Side) (p : Ptr) (v : β) (near far : Tree β) :
    join s p v near far ≠ nil := by cases s <;> simp [join]

theorem join_flip (s : Side) (p : Ptr) (v : β) (near far : Tree β) :
    join s.flip p v near far = join s p v far near := by
  cases s <;> rfl

theorem exists_join_eq (s : Side) (p : Ptr) (v : β) (near far : Tree β) :
    ∃ l r, join s p v near far = node p v l r := by
  cases s
  · exact ⟨near, far, rfl⟩
  · exact ⟨far, near, rfl⟩

@[simp] theorem size_join (s : Side) (p : Ptr) (v : β) (near far : Tree β) :
    (join s p v near far).size = near.size + far.size + 1 := by
  cases s <;> simp [join, size]; omega

theorem length_ptrs (t : Tree β) : t.ptrs.length = t.size := by
  induction t with
  | nil => rfl
  | node p v l r ihl ihr => simp [ptrs, size, ihl, ihr]

theorem map_fst_pre (t : Tree β) : t.pre.map Prod.fst = t.ptrs := by
  induction t with
  | nil => rfl
  | node p v l r ihl ihr => simp [pre, ptrs, ihl, ihr]

/-- Both orders have the same cells. -/
theorem ino_perm_pre (t : Tree β) : t.ino.Perm t.pre := by
  induction t with
  | nil => exact List.Perm.refl _
  | node p v l r ihl ihr => exact List.perm_middle.trans ((ihl.append ihr).cons (p, v))

theorem map_fst_ino_perm (t : Tree β) : (t.ino.map Prod.fst).Perm t.ptrs :=
  t.map_fst_pre ▸ t.ino_perm_pre.map Prod.fst

theorem ptrs_perm_of_ino_eq {t t' : Tree β} (h : t'.ino = t.ino) : t'.ptrs.Perm t.ptrs :=
  (map_fst_ino_perm t').symm.trans (h ▸ map_fst_ino_perm t)

/-- A rotation does not change the order of the cells. -/
theorem ino_rotate (s : Side) (x y : Ptr) (vx vy : β) (a b d : Tree β) :
    (join s y vy (join s x vx a b) d).ino = (join s x vx a (join s y vy b d)).ino := by
  cases s <;> simp [join, ino]

theorem length_ino (t : Tree β) : t.ino.length = t.size := by
  rw [← t.length_ptrs, ← List.length_map (f := Prod.fst), t.map_fst_ino_perm.length_eq]

theorem ptrs_join_perm (s : Side) (p : Ptr) (v : β) (near far : Tree β) :
    (join s p v near far).ptrs.Perm (p :: (near.ptrs ++ far.ptrs)) := by
  cases s with
  | left => exact List.Perm.refl _
  | right => exact List.perm_append_comm.cons p

@[simp] theorem mem_ptrs_join (s : Side) (p q : Ptr) (v : β) (near far : Tree β) :
    q ∈ (join s p v near far).ptrs ↔ q = p ∨ q ∈ near.ptrs ∨ q ∈ far.ptrs := by
  rw [(ptrs_join_perm s p v near far).mem_iff]
  simp

theorem mem_pre_join (s : Side) (p : Ptr) (v : β) (near far : Tree β) (x : Ptr × β) :
    x ∈ (join s p v near far).pre ↔ x = (p, v) ∨ x ∈ near.pre ∨ x ∈ far.pre := by
  cases s with
  | left => simp [join, pre]
  | right =>
    simp only [join, pre, List.mem_cons, List.mem_append]
    exact or_congr_right or_comm

theorem root_mem_ptrs (nul : Ptr) {t : Tree β} (h : t ≠ nil) : t.root nul ∈ t.ptrs := by
  cases t with
  | nil => exact absurd rfl h
  | node p v l r => simp [ptrs]

/-- Fill the hole of a context, innermost frame first. -/
def plug : List (Frame β) → Tree β → Tree β
  | [], t => t
  | f :: c, t => plug c (join f.side f.ptr f.val t f.sib)

@[simp] theorem plug_nil (t : Tree β) : plug [] t = t := rfl

@[simp] theorem plug_cons (f : Frame β) (c : List (Frame β)) (t : Tree β) :
    plug (f :: c) t = plug c (join f.side f.ptr f.val t f.sib) := rfl

/-- The hole may be moved to the other side of the innermost cell. -/
theorem plug_swap (s : Side) (p : Ptr) (v : β) (c : List (Frame β)) (t t' : Tree β) :
    plug (⟨s, p, v, t'⟩ :: c) t = plug (⟨s.flip, p, v, t⟩ :: c) t' := by
  rw [plug_cons, plug_cons, join_flip]

theorem plug_append (c d : List (Frame β)) (t : Tree β) : plug (c ++ d) t = plug d (plug c t) := by
  induction c generalizing t with
  | nil => rfl
  | cons f c ih => simp [ih]

theorem plug_ne_nil (c : List (Frame β)) {t : Tree β} (h : t ≠ nil) : plug c t ≠ nil := by
  induction c generalizing t with
  | nil => exact h
  | cons f c ih => exact ih (join_ne_nil _ _ _ _ _)

/-- The root of a tree does not depend on what is in a hole below it. -/
theorem root_plug_cons (nul : Ptr) (f : Frame β) (c : List (Frame β)) (t t' : Tree β) :
    (plug (f :: c) t).root nul = (plug (f :: c) t').root nul := by
  induction c generalizing f t t' with
  | nil => simp
  | cons g c ih => exact ih g _ _

end Tree

namespace Ctx

variable {β : Type}

/-- The address above the hole. -/
def top (nul : Ptr) : List (Frame β) → Ptr
  | [] => nul
  | f :: _ => f.ptr

/-- The addresses outside the hole. -/
def ptrs (c : List (Frame β)) : List Ptr := c.flatMap (fun f => f.ptr :: f.sib.ptrs)

/-- Cells before the hole in preorder. -/
def preBefore : List (Frame β) → List (Ptr × β)
  | [] => []
  | f :: c =>
    preBefore c ++ (f.ptr, f.val) :: (match f.side with | .left => [] | .right => f.sib.pre)

/-- Cells after the hole in preorder. -/
def preAfter : List (Frame β) → List (Ptr × β)
  | [] => []
  | f :: c => (match f.side with | .left => f.sib.pre | .right => []) ++ preAfter c

/-- Cells before the hole in inorder. -/
def inoBefore : List (Frame β) → List (Ptr × β)
  | [] => []
  | f :: c =>
    inoBefore c ++ (match f.side with | .left => [] | .right => f.sib.ino ++ [(f.ptr, f.val)])

/-- Cells after the hole in inorder. -/
def inoAfter : List (Frame β) → List (Ptr × β)
  | [] => []
  | f :: c =>
    (match f.side with | .left => (f.ptr, f.val) :: f.sib.ino | .right => []) ++ inoAfter c

@[simp] theorem top_nil (nul : Ptr) : top nul ([] : List (Frame β)) = nul := rfl

@[simp] theorem top_cons (nul : Ptr) (f : Frame β) (c : List (Frame β)) :
    top nul (f :: c) = f.ptr := rfl

@[simp] theorem ptrs_nil : ptrs ([] : List (Frame β)) = [] := rfl

@[simp] theorem ptrs_cons (f : Frame β) (c : List (Frame β)) :
    ptrs (f :: c) = f.ptr :: (f.sib.ptrs ++ ptrs c) := rfl

@[simp] theorem ptrs_append (c d : List (Frame β)) : ptrs (c ++ d) = ptrs c ++ ptrs d := by
  simp [ptrs]

theorem inoBefore_append (c d : List (Frame β)) :
    inoBefore (c ++ d) = inoBefore d ++ inoBefore c := by
  induction c with
  | nil => simp [inoBefore]
  | cons f c ih => simp [inoBefore, ih]

theorem inoAfter_append (c d : List (Frame β)) :
    inoAfter (c ++ d) = inoAfter c ++ inoAfter d := by
  induction c with
  | nil => simp [inoAfter]
  | cons f c ih => simp [inoAfter, ih]

theorem length_le_ptrs (c : List (Frame β)) : c.length ≤ (ptrs c).length := by
  induction c with
  | nil => simp
  | cons f c ih =>
    rw [ptrs_cons]
    simp only [List.length_cons, List.length_append]
    omega

end Ctx

namespace Tree

variable {β : Type}

open Ctx

theorem ptrs_plug_perm (c : List (Frame β)) (t : Tree β) :
    (plug c t).ptrs.Perm (t.ptrs ++ Ctx.ptrs c) := by
  induction c generalizing t with
  | nil => simp
  | cons f c ih =>
    refine (ih _).trans ?_
    rw [ptrs_cons]
    refine ((ptrs_join_perm f.side f.ptr f.val t f.sib).append_right _).trans ?_
    have hmid : (f.ptr :: (t.ptrs ++ f.sib.ptrs) ++ Ctx.ptrs c) =
        f.ptr :: (t.ptrs ++ (f.sib.ptrs ++ Ctx.ptrs c)) := by simp
    rw [hmid]
    exact List.perm_middle.symm

theorem mem_ptrs_plug (c : List (Frame β)) (t : Tree β) (q : Ptr) :
    q ∈ (plug c t).ptrs ↔ q ∈ t.ptrs ∨ q ∈ Ctx.ptrs c := by
  rw [(ptrs_plug_perm c t).mem_iff, List.mem_append]

/-- Addresses that leave the content of a hole leave the whole. -/
theorem ptrs_plug_perm_of {c : List (Frame β)} {t t' : Tree β} {ps : List Ptr}
    (h : t.ptrs.Perm (ps ++ t'.ptrs)) : (plug c t).ptrs.Perm (ps ++ (plug c t').ptrs) := by
  refine (ptrs_plug_perm c t).trans ((h.append_right _).trans ?_)
  rw [List.append_assoc]
  exact (ptrs_plug_perm c t').symm.append_left ps

theorem nodup_plug (c : List (Frame β)) (t : Tree β) :
    (plug c t).ptrs.Nodup ↔
      t.ptrs.Nodup ∧ (Ctx.ptrs c).Nodup ∧ List.Disjoint t.ptrs (Ctx.ptrs c) := by
  rw [(ptrs_plug_perm c t).nodup_iff, List.nodup_append']

theorem size_plug (c : List (Frame β)) (t : Tree β) :
    (plug c t).size = t.size + (Ctx.ptrs c).length := by
  rw [← length_ptrs, (ptrs_plug_perm c t).length_eq, List.length_append, length_ptrs]

theorem pre_plug (c : List (Frame β)) (t : Tree β) :
    (plug c t).pre = preBefore c ++ t.pre ++ preAfter c := by
  induction c generalizing t with
  | nil => simp [preBefore, preAfter]
  | cons f c ih =>
    obtain ⟨s, p, v, sib⟩ := f
    cases s <;> simp [ih, preBefore, preAfter, join, pre]

theorem mem_pre_plug (c : List (Frame β)) (t : Tree β) (x : Ptr × β) :
    x ∈ (plug c t).pre ↔ x ∈ t.pre ∨ x ∈ preBefore c ∨ x ∈ preAfter c := by
  rw [pre_plug]
  simp only [List.mem_append]
  tauto

/-- What holds of all cells still does when only the content of a hole is exchanged. -/
theorem forall_pre_plug {P : Ptr × β → Prop} {c : List (Frame β)} {t t' : Tree β}
    (h : ∀ x ∈ (plug c t).pre, P x) (h' : ∀ x ∈ t'.pre, P x) : ∀ x ∈ (plug c t').pre, P x := by
  intro x hx
  rcases (mem_pre_plug c t' x).mp hx with hx | hx
  · exact h' x hx
  · exact h x ((mem_pre_plug c t x).mpr (.inr hx))

/-- Overwriting one payload leaves the other cells, which are at other addresses. -/
theorem mem_pre_of_setVal {c : List (Frame β)} {p : Ptr} {v v' : β} {l r : Tree β} {x : Ptr × β}
    (hnd : (plug c (node p v l r)).ptrs.Nodup) (hx : x ∈ (plug c (node p v' l r)).pre) :
    x = (p, v') ∨ x ∈ (plug c (node p v l r)).pre ∧ x.1 ≠ p := by
  rw [← map_fst_pre, pre_plug] at hnd
  have hsplit : preBefore c ++ (node p v l r).pre ++ preAfter c =
      preBefore c ++ (p, v) :: (l.pre ++ r.pre ++ preAfter c) := by simp [pre]
  rw [hsplit, List.map_append, List.map_cons, List.nodup_middle, List.nodup_cons,
    ← List.map_append] at hnd
  have hother : ∀ y ∈ preBefore c ++ (l.pre ++ r.pre ++ preAfter c), y.1 ≠ p := by
    rintro y hy rfl
    exact hnd.1 (List.mem_map.mpr ⟨y, hy, rfl⟩)
  rw [pre_plug] at hx ⊢
  simp only [pre, List.mem_append, List.mem_cons] at hx hother ⊢
  rcases hx with (hx | rfl | hx | hx) | hx
  · exact .inr ⟨.inl (.inl hx), hother x (.inl hx)⟩
  · exact .inl rfl
  · exact .inr ⟨.inl (.inr (.inr (.inl hx))), hother x (.inr (.inl (.inl hx)))⟩
  · exact .inr ⟨.inl (.inr (.inr (.inr hx))), hother x (.inr (.inl (.inr hx)))⟩
  · exact .inr ⟨.inr hx, hother x (.inr (.inr hx))⟩

theorem ino_plug (c : List (Frame β)) (t : Tree β) :
    (plug c t).ino = inoBefore c ++ t.ino ++ inoAfter c := by
  induction c generalizing t with
  | nil => simp [inoBefore, inoAfter]
  | cons f c ih =>
    obtain ⟨s, p, v, sib⟩ := f
    cases s <;> simp [ih, inoBefore, inoAfter, join, ino]

/-- Every address of a tree is the root of some subtree. -/
theorem exists_plug_of_mem {t : Tree β} {p : Ptr} (h : p ∈ t.ptrs) :
    ∃ c v l r, t = plug c (node p v l r) := by
  suffices hgen : ∀ (c : List (Frame β)), ∃ d v l r, plug c t = plug d (node p v l r) from hgen []
  induction t with
  | nil => simp [ptrs] at h
  | node q v l r ihl ihr =>
    intro c
    simp only [ptrs, List.mem_cons, List.mem_append] at h
    rcases h with rfl | hl | hr
    · exact ⟨c, v, l, r, rfl⟩
    · exact ihl hl (⟨.left, q, v, r⟩ :: c)
    · exact ihr hr (⟨.right, q, v, l⟩ :: c)

/-- A cell of a tree is the root of a part of it. -/
theorem exists_plug_of_mem_pre {t : Tree β} {p : Ptr} {v : β} (h : (p, v) ∈ t.pre) :
    ∃ c l r, plug c (node p v l r) = t := by
  suffices hgen : ∀ (c : List (Frame β)), ∃ d l r, plug d (node p v l r) = plug c t from hgen []
  induction t with
  | nil => simp [pre] at h
  | node q w l r ihl ihr =>
    intro c
    simp only [pre, List.mem_cons, List.mem_append, Prod.mk.injEq] at h
    rcases h with ⟨rfl, rfl⟩ | hl | hr
    · exact ⟨c, l, r, rfl⟩
    · exact ihl hl (⟨.left, q, w, r⟩ :: c)
    · exact ihr hr (⟨.right, q, w, l⟩ :: c)

/-- The outermost frame of a path says in which child of the root the hole lies. -/
theorem plug_concat_eq_node {d : List (Frame β)} {f : Frame β} {s a b : Tree β} {q : Ptr} {w : β}
    (h : plug (d ++ [f]) s = node q w a b) :
    f = ⟨.left, q, w, b⟩ ∧ plug d s = a ∨ f = ⟨.right, q, w, a⟩ ∧ plug d s = b := by
  obtain ⟨side, p, v, sib⟩ := f
  rw [plug_append, plug_cons, plug_nil] at h
  cases side with
  | left =>
    obtain ⟨rfl, rfl, rfl, rfl⟩ := node.inj h
    exact .inl ⟨rfl, rfl⟩
  | right =>
    obtain ⟨rfl, rfl, rfl, rfl⟩ := node.inj h
    exact .inr ⟨rfl, rfl⟩

/-- A part of a tree that visits no address twice has the root of the tree only if it is the
tree. -/
theorem root_plug_eq_iff (nul : Ptr) {c : List (Frame β)} {t : Tree β}
    (hnd : (plug c t).ptrs.Nodup) (hne : t ≠ nil) : t.root nul = (plug c t).root nul ↔ c = [] := by
  cases c with
  | nil => simp
  | cons f c =>
    simp only [reduceCtorEq, iff_false]
    intro heq
    have hout : (plug (f :: c) t).root nul ∈ Ctx.ptrs (f :: c) := by
      have hmem := root_mem_ptrs nul (plug_ne_nil c (join_ne_nil f.side f.ptr f.val nil f.sib))
      rw [← plug_cons, mem_ptrs_plug, root_plug_cons nul f c nil t] at hmem
      simpa using hmem
    exact ((nodup_plug _ _).mp hnd).2.2 (heq ▸ root_mem_ptrs nul hne) hout

/-- In a tree that visits no address twice there is one path to an address, and one subtree. -/
theorem plug_unique {t : Tree β} (hnd : t.ptrs.Nodup) {c c' : List (Frame β)} {p : Ptr}
    {v v' : β} {l l' r r' : Tree β} (h : plug c (node p v l r) = t)
    (h' : plug c' (node p v' l' r') = t) : c = c' ∧ node p v l r = node p v' l' r' := by
  have hin : ∀ (d : List (Frame β)) (v : β) (l r : Tree β), p ∈ (plug d (node p v l r)).ptrs :=
    fun d v l r => (mem_ptrs_plug ..).mpr (.inl (by simp [ptrs]))
  induction t generalizing c c' with
  | nil => exact absurd h (plug_ne_nil c (by simp))
  | node q w a b iha ihb =>
    simp only [ptrs, List.nodup_cons, List.mem_append, not_or] at hnd
    obtain ⟨⟨hqa, hqb⟩, hnd⟩ := hnd
    obtain ⟨hnda, hndb, hdisj⟩ := List.nodup_append'.mp hnd
    -- a hole at the root is not also further down
    have hroot : ∀ {d : List (Frame β)} {f : Frame β} {v v' : β} {l l' r r' : Tree β},
        node p v l r = node q w a b → plug (d ++ [f]) (node p v' l' r') = node q w a b →
        False := by
      intro d f v v' l l' r r' hnode hplug
      obtain rfl : p = q := (node.inj hnode).1
      rcases plug_concat_eq_node hplug with ⟨-, hsub⟩ | ⟨-, hsub⟩
      · exact hqa (hsub ▸ hin d v' l' r')
      · exact hqb (hsub ▸ hin d v' l' r')
    rcases List.eq_nil_or_concat' c with rfl | ⟨d, f, rfl⟩ <;>
      rcases List.eq_nil_or_concat' c' with rfl | ⟨d', f', rfl⟩
    · exact ⟨rfl, h.trans h'.symm⟩
    · exact (hroot h h').elim
    · exact (hroot h' h).elim
    · rcases plug_concat_eq_node h with ⟨rfl, hsub⟩ | ⟨rfl, hsub⟩ <;>
        rcases plug_concat_eq_node h' with ⟨rfl, hsub'⟩ | ⟨rfl, hsub'⟩
      · obtain ⟨rfl, heq⟩ := iha hnda hsub hsub'
        exact ⟨rfl, heq⟩
      · exact absurd (hsub' ▸ hin d' v' l' r') (hdisj (hsub ▸ hin d v l r))
      · exact absurd (hsub ▸ hin d v l r) (hdisj (hsub' ▸ hin d' v' l' r'))
      · obtain ⟨rfl, heq⟩ := ihb hndb hsub hsub'
        exact ⟨rfl, heq⟩

end Tree

/-- How a cell of type `N` stores its three links and its payload of type `β`; `nul` is the
address that stands for an absent cell. -/
class NodeLayout (N : Type) (β : outParam Type) where
  nul : Ptr
  cell : (left right parent : Ptr) → β → N

namespace LinkTree

open Tree

variable {N β : Type} [NodeLayout N β]

/-- The absent cell of the layout. -/
abbrev nul (N : Type) {β : Type} [NodeLayout N β] : Ptr := NodeLayout.nul N

/-- The cell with `near` as child on side `s` and `far` as child on the other. -/
def mkSide (s : Side) (near far par : Ptr) (v : β) : N :=
  match s with
  | .left => NodeLayout.cell near far par v
  | .right => NodeLayout.cell far near par v

/-- The heap holds the tree, its root below `par`. -/
def Rep (h : Heap N) : Ptr → Tree β → Prop
  | _, .nil => True
  | par, .node p v l r =>
    p ≠ nul N ∧ h.get p = some (NodeLayout.cell (l.root (nul N)) (r.root (nul N)) par v) ∧
      Rep h p l ∧ Rep h p r

/-- The heap holds the tree around the hole, whose content has its root at `hole`. -/
def CtxRep (h : Heap N) : Ptr → List (Frame β) → Prop
  | _, [] => True
  | hole, f :: c =>
    f.ptr ≠ nul N ∧
      h.get f.ptr =
        some (mkSide f.side hole (f.sib.root (nul N)) (Ctx.top (nul N) c) f.val) ∧
      Rep h f.ptr f.sib ∧ CtxRep h f.ptr c

@[simp] theorem rep_nil (h : Heap N) (par : Ptr) : Rep h par (.nil : Tree β) := trivial

theorem rep_node (h : Heap N) (par p : Ptr) (v : β) (l r : Tree β) :
    Rep h par (.node p v l r) ↔
      p ≠ nul N ∧ h.get p = some (NodeLayout.cell (l.root (nul N)) (r.root (nul N)) par v) ∧
        Rep h p l ∧ Rep h p r := Iff.rfl

theorem rep_join (h : Heap N) (par : Ptr) (s : Side) (p : Ptr) (v : β) (near far : Tree β) :
    Rep h par (join s p v near far) ↔
      p ≠ nul N ∧ h.get p = some (mkSide s (near.root (nul N)) (far.root (nul N)) par v) ∧
        Rep h p near ∧ Rep h p far := by
  cases s with
  | left => exact Iff.rfl
  | right =>
    simp only [join, rep_node, mkSide]
    exact and_congr_right fun _ => and_congr_right fun _ => and_comm

@[simp] theorem ctxRep_nil (h : Heap N) (hole : Ptr) : CtxRep h hole ([] : List (Frame β)) :=
  trivial

theorem ctxRep_cons (h : Heap N) (hole : Ptr) (f : Frame β) (c : List (Frame β)) :
    CtxRep h hole (f :: c) ↔
      f.ptr ≠ nul N ∧
        h.get f.ptr =
          some (mkSide f.side hole (f.sib.root (nul N)) (Ctx.top (nul N) c) f.val) ∧
        Rep h f.ptr f.sib ∧ CtxRep h f.ptr c := Iff.rfl

/-- A representation splits at any subtree. -/
theorem rep_plug (h : Heap N) (c : List (Frame β)) (t : Tree β) :
    Rep h (nul N) (plug c t) ↔
      CtxRep h (t.root (nul N)) c ∧ Rep h (Ctx.top (nul N) c) t := by
  induction c generalizing t with
  | nil => simp
  | cons f c ih =>
    rw [plug_cons, ih, rep_join, ctxRep_cons, root_join, Ctx.top_cons]
    tauto

/-- Every address of a represented tree holds a cell. -/
theorem Rep.live {h : Heap N} {par : Ptr} {t : Tree β} (ht : Rep h par t) :
    ∀ p ∈ t.ptrs, p ≠ nul N ∧ ∃ n, h.get p = some n := by
  induction t generalizing par with
  | nil => simp [ptrs]
  | node p v l r ihl ihr =>
    obtain ⟨hp, hget, hl, hr⟩ := ht
    intro q hq
    simp only [ptrs, List.mem_cons, List.mem_append] at hq
    rcases hq with rfl | hq | hq
    · exact ⟨hp, _, hget⟩
    · exact ihl hl q hq
    · exact ihr hr q hq

/-- The cell behind an entry of the inorder list. -/
theorem Rep.get_of_mem_ino {h : Heap N} {par : Ptr} {t : Tree β} (ht : Rep h par t) {x : Ptr × β}
    (hx : x ∈ t.ino) : ∃ l r q, h.get x.1 = some (NodeLayout.cell l r q x.2) := by
  induction t generalizing par with
  | nil => simp [ino] at hx
  | node p v l r ihl ihr =>
    obtain ⟨-, hget, hl, hr⟩ := ht
    simp only [ino, List.mem_append, List.mem_cons] at hx
    rcases hx with hx | rfl | hx
    · exact ihl hl hx
    · exact ⟨_, _, _, hget⟩
    · exact ihr hr hx

theorem CtxRep.live {h : Heap N} {hole : Ptr} {c : List (Frame β)} (hc : CtxRep h hole c) :
    ∀ p ∈ Ctx.ptrs c, p ≠ nul N ∧ ∃ n, h.get p = some n := by
  induction c generalizing hole with
  | nil => simp
  | cons f c ih =>
    obtain ⟨hp, hget, hsib, hc⟩ := hc
    intro q hq
    simp only [Ctx.ptrs_cons, List.mem_cons, List.mem_append] at hq
    rcases hq with rfl | hq | hq
    · exact ⟨hp, _, hget⟩
    · exact hsib.live q hq
    · exact ih hc q hq

/-! ## Framing -/

/-- A representation depends on the cells of its tree only. -/
theorem rep_congr {h h' : Heap N} {par : Ptr} {t : Tree β}
    (hsame : ∀ q ∈ t.ptrs, h'.get q = h.get q) : Rep h' par t ↔ Rep h par t := by
  induction t generalizing par with
  | nil => exact Iff.rfl
  | node p v l r ihl ihr =>
    simp only [ptrs, List.mem_cons, List.mem_append] at hsame
    rw [rep_node, rep_node, hsame p (.inl rfl), ihl (fun q hq => hsame q (.inr (.inl hq))),
      ihr (fun q hq => hsame q (.inr (.inr hq)))]

theorem ctxRep_congr {h h' : Heap N} {hole : Ptr} {c : List (Frame β)}
    (hsame : ∀ q ∈ Ctx.ptrs c, h'.get q = h.get q) : CtxRep h' hole c ↔ CtxRep h hole c := by
  induction c generalizing hole with
  | nil => exact Iff.rfl
  | cons f c ih =>
    simp only [Ctx.ptrs_cons, List.mem_cons, List.mem_append] at hsame
    rw [ctxRep_cons, ctxRep_cons, hsame f.ptr (.inl rfl),
      rep_congr (fun q hq => hsame q (.inr (.inl hq))),
      ih (fun q hq => hsame q (.inr (.inr hq)))]

theorem rep_set {h : Heap N} {p par : Ptr} {n : N} {t : Tree β} (hp : p ∉ t.ptrs) :
    Rep (h.set p n) par t ↔ Rep h par t :=
  rep_congr fun _ hq => h.get_set_ne n (fun heq => hp (heq ▸ hq))

theorem ctxRep_set {h : Heap N} {p hole : Ptr} {n : N} {c : List (Frame β)}
    (hp : p ∉ Ctx.ptrs c) : CtxRep (h.set p n) hole c ↔ CtxRep h hole c :=
  ctxRep_congr fun _ hq => h.get_set_ne n (fun heq => hp (heq ▸ hq))

/-- A heap holds one tree at an address, when a cell tells its links and its payload. -/
theorem Rep.unique {h : Heap N}
    (hcell : ∀ {l r q l' r' q' : Ptr} {v v' : β},
      (NodeLayout.cell l r q v : N) = NodeLayout.cell l' r' q' v' → l = l' ∧ r = r' ∧ v = v')
    {par : Ptr} {t t' : Tree β} (ht : Rep h par t) (ht' : Rep h par t')
    (hroot : t.root (nul N) = t'.root (nul N)) : t = t' := by
  induction t generalizing par t' with
  | nil =>
    cases t' with
    | nil => rfl
    | node p v l r => exact absurd hroot.symm ht'.1
  | node p v l r ihl ihr =>
    obtain ⟨hp, hget, hl, hr⟩ := ht
    cases t' with
    | nil => exact absurd hroot hp
    | node p' v' l' r' =>
      obtain rfl : p = p' := hroot
      obtain ⟨-, hget', hl', hr'⟩ := ht'
      rw [hget] at hget'
      obtain ⟨hleft, hright, rfl⟩ := hcell (Option.some.inj hget')
      rw [ihl hl hl' hleft, ihr hr hr' hright]

/-- A heap and a root pointer hold a tree whose cells are all different. -/
structure Holds (h : Heap N) (root : Ptr) (t : Tree β) : Prop where
  root_eq : root = t.root (nul N)
  rep : Rep h (nul N) t
  nodup : t.ptrs.Nodup

/-- A held tree has no more cells than the heap has addresses. -/
theorem Holds.size_le {h : Heap N} {root : Ptr} {t : Tree β} (ht : Holds h root t) :
    t.size ≤ h.bound := by
  rw [← length_ptrs]
  exact h.length_le_bound _ ht.nodup (fun p hp => (ht.rep.live p hp).2)

theorem Holds.live {h : Heap N} {root : Ptr} {t : Tree β} (ht : Holds h root t) {p : Ptr}
    (hp : p ∈ t.ptrs) : p ≠ nul N ∧ ∃ n, h.get p = some n :=
  ht.rep.live p hp

/-- An address without a cell is not in the tree. -/
theorem Holds.not_mem {h : Heap N} {root : Ptr} {t : Tree β} (ht : Holds h root t) {p : Ptr}
    (hp : h.get p = none) : p ∉ t.ptrs := by
  intro hmem
  obtain ⟨-, n, hn⟩ := ht.live hmem
  rw [hp] at hn
  cases hn

theorem Holds.get_join {h : Heap N} {root : Ptr} {c : List (Frame β)} {s : Side} {p : Ptr} {v : β}
    {near far : Tree β} (ht : Holds h root (plug c (join s p v near far))) :
    h.get p = some (mkSide s (near.root (nul N)) (far.root (nul N)) (Ctx.top (nul N) c) v) :=
  ((rep_join ..).mp ((rep_plug h c _).mp ht.rep).2).2.1

theorem Holds.root_eq_nul {h : Heap N} {root : Ptr} {c : List (Frame β)} {t : Tree β}
    (ht : Holds h root (plug c t)) : t.root (nul N) = nul N ↔ t = .nil := by
  cases t with
  | nil => simp
  | node p v l r =>
    have hp := (ht.live (p := p) ((mem_ptrs_plug ..).mpr (.inl (by simp [ptrs])))).1
    simpa using hp

/-- The root pointer is at a subtree exactly when the subtree is the whole. -/
theorem Holds.root_eq_iff {h : Heap N} {root : Ptr} {c : List (Frame β)} {t : Tree β}
    (ht : Holds h root (plug c t)) : t.root (nul N) = root ↔ c = [] := by
  cases c with
  | nil => simp [ht.root_eq]
  | cons f c =>
    simp only [reduceCtorEq, iff_false]
    intro heq
    have hout : root ∈ Ctx.ptrs (f :: c) := by
      have hnil := ht.root_eq
      rw [root_plug_cons _ f c t .nil] at hnil
      have hmem : (plug (f :: c) .nil).root (nul N) ∈ (plug (f :: c) (.nil : Tree β)).ptrs :=
        root_mem_ptrs _ (plug_ne_nil c (join_ne_nil _ _ _ _ _))
      rw [← hnil, mem_ptrs_plug] at hmem
      simpa using hmem
    have hne := (ht.live ((mem_ptrs_plug ..).mpr (.inr hout))).1
    have hin : root ∈ t.ptrs := by
      rw [← heq]
      refine root_mem_ptrs _ fun hnil => hne ?_
      rw [← heq, hnil, root_nil]
    exact ((nodup_plug _ _).mp ht.nodup).2.2 hin hout

/-- The two children of a cell are different unless both are absent. -/
theorem Holds.root_ne {h : Heap N} {root : Ptr} {c : List (Frame β)} {s : Side} {p : Ptr} {v : β}
    (near : Tree β) {far : Tree β} (ht : Holds h root (plug c (join s p v near far)))
    (hne : near ≠ .nil ∨ far ≠ .nil) : near.root (nul N) ≠ far.root (nul N) := by
  have hfn := ht.root_eq_nul (c := ⟨s, p, v, far⟩ :: c) (t := near)
  have hff := Holds.root_eq_nul (c := ⟨s.flip, p, v, near⟩ :: c) (t := far)
    (h := h) (by rwa [← plug_swap])
  intro heq
  by_cases hnear : near = .nil
  · rw [hfn.mpr hnear] at heq
    exact hne.elim (fun h => h hnear) (fun h => h (hff.mp heq.symm))
  · have hfar : far ≠ .nil := fun h => hnear (hfn.mp (heq.trans (hff.mpr h)))
    have hnd := (ptrs_join_perm s p v near far).nodup_iff.mp ((nodup_plug _ _).mp ht.nodup).1
    refine (List.nodup_append'.mp (List.nodup_cons.mp hnd).2).2.2
      (root_mem_ptrs (nul N) hnear) ?_
    rw [heq]
    exact root_mem_ptrs _ hfar

theorem Holds.congr {h h' : Heap N} {root : Ptr} {t : Tree β} (ht : Holds h root t)
    (hsame : ∀ q ∈ t.ptrs, h'.get q = h.get q) : Holds h' root t :=
  ⟨ht.root_eq, (rep_congr hsame).mpr ht.rep, ht.nodup⟩

end LinkTree

end OpxCommonUtils
