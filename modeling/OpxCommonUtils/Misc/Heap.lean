import Mathlib.Data.Finset.Card
import Mathlib.Data.Finset.Range
import Mathlib.Algebra.Group.Nat.Defs

/-!
# Fallible programs over a heap of cells

Memory is a finite partial map from addresses to cells. A program over it is a function into
`Exec`: it either delivers its result or stops in a `Fault`, which records what went wrong (a
read or write through a pointer to no live cell, a failed assertion, or a loop that never
ends). Allocation is a parameter: a `Malloc` answers every request with an unused address or
with nothing, and may reuse an address that was released before.
-/

namespace OpxCommonUtils

/-- An address; `NULL` is never the address of a cell. -/
abbrev Ptr := Nat

/-- The null address. -/
abbrev NULL : Ptr := 0

/-- The ways a program goes wrong. -/
inductive Fault where
  | badPointer (p : Ptr)
  | assertion
  | diverges
  deriving DecidableEq, Repr

/-- The result of a program that may go wrong. -/
abbrev Exec (α : Type) := Except Fault α

instance {α : Type} [DecidableEq α] : DecidableEq (Exec α)
  | .ok a, .ok b => if h : a = b then isTrue (h ▸ rfl) else isFalse (fun e => h (Except.ok.inj e))
  | .error a, .error b =>
      if h : a = b then isTrue (h ▸ rfl) else isFalse (fun e => h (Except.error.inj e))
  | .ok _, .error _ => isFalse nofun
  | .error _, .ok _ => isFalse nofun

@[simp] theorem exec_bind_ok {α β : Type} (a : α) (f : α → Exec β) :
    (Except.ok a >>= f : Exec β) = f a := rfl

@[simp] theorem exec_bind_error {α β : Type} (e : Fault) (f : α → Exec β) :
    ((Except.error e : Exec α) >>= f) = Except.error e := rfl

@[simp] theorem exec_pure {α : Type} (a : α) : (pure a : Exec α) = Except.ok a := rfl

/-- A sequence of programs succeeds exactly when both parts do. -/
theorem exec_bind_eq_ok {α β : Type} {x : Exec α} {f : α → Exec β} {b : β} :
    (x >>= f) = .ok b ↔ ∃ a, x = .ok a ∧ f a = .ok b := by
  cases x with
  | error e => simp
  | ok a => simp

theorem exec_eq_ok_of_toOption {α : Type} {x : Exec α} {a : α} (h : x.toOption = some a) :
    x = .ok a := by
  cases x with
  | error e => cases h
  | ok b => exact congrArg Except.ok (Option.some.inj h)

/-- What a program delivers in the first place. -/
theorem exec_fst_of_toOption {α β : Type} {x : Exec (α × β)} {a : α}
    (h : x.toOption.map Prod.fst = some a) : ∃ b, x = .ok (a, b) := by
  obtain ⟨⟨a', b⟩, hx, rfl⟩ := Option.map_eq_some_iff.mp h
  exact ⟨b, exec_eq_ok_of_toOption hx⟩

/-- The program succeeds, with a result that satisfies `Q`. -/
def Delivers {α : Type} (x : Exec α) (Q : α → Prop) : Prop := ∃ a, x = .ok a ∧ Q a

@[simp] theorem delivers_ok {α : Type} {a : α} {Q : α → Prop} : Delivers (.ok a) Q ↔ Q a := by
  simp [Delivers]

/-- The rule of sequencing. -/
theorem Delivers.bind {α β : Type} {x : Exec α} {f : α → Exec β} {P : α → Prop} {Q : β → Prop}
    (hx : Delivers x P) (hf : ∀ a, P a → Delivers (f a) Q) : Delivers (x >>= f) Q := by
  obtain ⟨a, rfl, ha⟩ := hx
  exact hf a ha

/-- The rule of consequence. -/
theorem Delivers.mono {α : Type} {x : Exec α} {P Q : α → Prop} (hx : Delivers x P)
    (h : ∀ a, P a → Q a) : Delivers x Q := by
  obtain ⟨a, hok, ha⟩ := hx
  exact ⟨a, hok, h a ha⟩

/-- Whatever the program delivers satisfies `Q`; it may also go wrong. -/
def Ensures {α : Type} (x : Exec α) (Q : α → Prop) : Prop := ∀ a, x = .ok a → Q a

@[simp] theorem ensures_ok {α : Type} {a : α} {Q : α → Prop} : Ensures (.ok a) Q ↔ Q a := by
  simp [Ensures]

@[simp] theorem ensures_error {α : Type} {e : Fault} {Q : α → Prop} :
    Ensures (.error e : Exec α) Q := by
  intro a h
  cases h

/-- The rule of sequencing. -/
theorem Ensures.bind {α β : Type} {x : Exec α} {f : α → Exec β} {P : α → Prop} {Q : β → Prop}
    (hx : Ensures x P) (hf : ∀ a, P a → Ensures (f a) Q) : Ensures (x >>= f) Q := by
  intro b hb
  obtain ⟨a, hok, hrest⟩ := exec_bind_eq_ok.mp hb
  exact hf a (hx a hok) b hrest

/-- Sequencing, when the result of the first part does not matter. -/
theorem Ensures.bindAny {α β : Type} {x : Exec α} {f : α → Exec β} {Q : β → Prop}
    (hf : ∀ a, Ensures (f a) Q) : Ensures (x >>= f) Q :=
  Ensures.bind (P := fun _ => True) (fun _ _ => trivial) fun a _ => hf a

/-- The rule of consequence. -/
theorem Ensures.mono {α : Type} {x : Exec α} {P Q : α → Prop} (hx : Ensures x P)
    (h : ∀ a, P a → Q a) : Ensures x Q := fun a ha => h a (hx a ha)

/-- The program ends, in a failed assertion or with a result that satisfies `Q`. -/
def Settles {α : Type} (x : Exec α) (Q : α → Prop) : Prop := x ≠ .error .diverges ∧ Ensures x Q

@[simp] theorem settles_ok {α : Type} {a : α} {Q : α → Prop} : Settles (.ok a) Q ↔ Q a := by
  simp [Settles]

/-- The rule of sequencing. -/
theorem Settles.bind {α β : Type} {x : Exec α} {f : α → Exec β} {P : α → Prop} {Q : β → Prop}
    (hx : Settles x P) (hf : ∀ a, P a → Settles (f a) Q) : Settles (x >>= f) Q := by
  constructor
  · cases x with
    | error e =>
      intro h
      exact hx.1 (by cases h; rfl)
    | ok a => exact (hf a (settles_ok.mp hx)).1
  · exact hx.2.bind fun a ha => (hf a ha).2

/-- The rule of consequence. -/
theorem Settles.mono {α : Type} {x : Exec α} {P Q : α → Prop} (hx : Settles x P)
    (h : ∀ a, P a → Q a) : Settles x Q := ⟨hx.1, hx.2.mono h⟩

/-- Decrement of a `u_long`. -/
def ulongPred (n : Nat) : Nat := if n = 0 then 2 ^ 64 - 1 else n - 1

/-- An assertion: the program goes on only when `b` holds. -/
def assertThat (b : Bool) : Exec Unit := if b then .ok () else .error .assertion

@[simp] theorem assertThat_true : assertThat true = .ok () := rfl

@[simp] theorem assertThat_false : assertThat false = .error .assertion := rfl

theorem ensures_assertThat (b : Bool) : Ensures (assertThat b) fun _ => b = true := by
  cases b <;> simp

theorem settles_assertThat (b : Bool) : Settles (assertThat b) fun _ => b = true :=
  ⟨by cases b <;> simp, ensures_assertThat b⟩

/-- Cells at finitely many addresses, all below `bound`. -/
structure Heap (N : Type) where
  get : Ptr → Option N
  bound : Nat
  above : ∀ p, bound ≤ p → get p = none

namespace Heap

variable {N : Type}

/-- The heap with no cell. -/
def empty : Heap N := ⟨fun _ => none, 0, fun _ _ => rfl⟩

/-- Store `n` at `p`, which is the cell's allocation when there was none. -/
def set (h : Heap N) (p : Ptr) (n : N) : Heap N where
  get q := if q = p then some n else h.get q
  bound := max h.bound (p + 1)
  above q hq := by
    have hne : q ≠ p := by omega
    rw [if_neg hne]
    exact h.above q (by omega)

/-- Release the cell at `p`. -/
def erase (h : Heap N) (p : Ptr) : Heap N where
  get q := if q = p then none else h.get q
  bound := h.bound
  above q hq := by
    split
    · rfl
    · exact h.above q hq

@[simp] theorem get_empty (p : Ptr) : (empty : Heap N).get p = none := rfl

theorem get_set (h : Heap N) (p q : Ptr) (n : N) :
    (h.set p n).get q = if q = p then some n else h.get q := rfl

@[simp] theorem get_set_self (h : Heap N) (p : Ptr) (n : N) : (h.set p n).get p = some n := by
  simp [get_set]

theorem get_set_ne (h : Heap N) {p q : Ptr} (n : N) (hne : q ≠ p) :
    (h.set p n).get q = h.get q := by
  simp [get_set, hne]

theorem get_erase (h : Heap N) (p q : Ptr) :
    (h.erase p).get q = if q = p then none else h.get q := rfl

@[simp] theorem get_erase_self (h : Heap N) (p : Ptr) : (h.erase p).get p = none := by
  simp [get_erase]

theorem get_erase_ne (h : Heap N) {p q : Ptr} (hne : q ≠ p) : (h.erase p).get q = h.get q := by
  simp [get_erase, hne]

theorem ext_get {h h' : Heap N} (hget : h.get = h'.get) (hbound : h.bound = h'.bound) : h = h' := by
  obtain ⟨get, bound, above⟩ := h
  obtain ⟨get', bound', above'⟩ := h'
  obtain rfl : get = get' := hget
  obtain rfl : bound = bound' := hbound
  rfl

/-- A live address is below the bound. -/
theorem lt_bound (h : Heap N) {p : Ptr} {n : N} (hp : h.get p = some n) : p < h.bound := by
  rcases Nat.lt_or_ge p h.bound with hlt | hge
  · exact hlt
  · rw [h.above p hge] at hp
    cases hp

/-- A cell that is changed and changed back. -/
theorem set_set_self {h : Heap N} {p : Ptr} {n : N} (hp : h.get p = some n) (m : N) :
    (h.set p m).set p n = h := by
  have hlt := h.lt_bound hp
  refine ext_get (funext fun q => ?_) ?_
  · rw [get_set, get_set]
    split
    · next hq => rw [hq, hp]
    · rfl
  · change max (max h.bound (p + 1)) (p + 1) = h.bound
    rw [Nat.max_eq_left hlt, Nat.max_eq_left hlt]

/-- Distinct live addresses are at most as many as the bound: a loop that follows pointers
without meeting a cell twice ends within `bound` steps. -/
theorem length_le_bound (h : Heap N) (ps : List Ptr) (hnd : ps.Nodup)
    (hlive : ∀ p ∈ ps, ∃ n, h.get p = some n) : ps.length ≤ h.bound := by
  have hsub : ps.toFinset ⊆ Finset.range h.bound := by
    intro p hp
    obtain ⟨n, hn⟩ := hlive p (List.mem_toFinset.mp hp)
    exact Finset.mem_range.mpr (h.lt_bound hn)
  have hcard := Finset.card_le_card hsub
  rwa [List.toFinset_card_of_nodup hnd, Finset.card_range] at hcard

/-- Read the cell at `p`. -/
def deref (h : Heap N) (p : Ptr) : Exec N :=
  match h.get p with
  | some n => .ok n
  | none => .error (.badPointer p)

/-- Change the cell at `p` by `f`. -/
def update (h : Heap N) (p : Ptr) (f : N → N) : Exec (Heap N) :=
  match h.get p with
  | some n => .ok (h.set p (f n))
  | none => .error (.badPointer p)

theorem deref_ok {h : Heap N} {p : Ptr} {n : N} (hp : h.get p = some n) : h.deref p = .ok n := by
  simp [deref, hp]

theorem update_ok {h : Heap N} {p : Ptr} {n : N} (hp : h.get p = some n) (f : N → N) :
    h.update p f = .ok (h.set p (f n)) := by
  simp [update, hp]

theorem deref_eq_ok {h : Heap N} {p : Ptr} {n : N} : h.deref p = .ok n ↔ h.get p = some n := by
  unfold deref
  cases h.get p <;> simp

theorem update_eq_ok {h h' : Heap N} {p : Ptr} {f : N → N} :
    h.update p f = .ok h' ↔ ∃ n, h.get p = some n ∧ h' = h.set p (f n) := by
  unfold update
  cases h.get p with
  | none => simp
  | some n => simp [eq_comm]

end Heap

/-- An allocator: for the heap at hand it names an unused address other than `NULL`, or fails. -/
structure Malloc (N : Type) where
  next : Heap N → Option Ptr
  fresh : ∀ h p, next h = some p → h.get p = none ∧ p ≠ NULL

namespace Malloc

variable {N : Type}

/-- The allocator that hands out the first unused address among `ps`. -/
def ofList (ps : List Ptr) : Malloc N where
  next h := ps.find? (fun p => (h.get p).isNone && p != NULL)
  fresh h p hp := by
    have hprop := List.find?_some hp
    simpa using hprop

/-- The allocator that hands out the address above all others. -/
def above : Malloc N where
  next h := some (h.bound + 1)
  fresh h p hp := by
    obtain rfl := Option.some_inj.mp hp
    exact ⟨h.above _ (Nat.le_succ _), Nat.succ_ne_zero _⟩

/-- The allocator never fails. -/
def Succeeds (A : Malloc N) : Prop := ∀ h, ∃ p, A.next h = some p

theorem succeeds_above : (above : Malloc N).Succeeds := fun h => ⟨h.bound + 1, rfl⟩

end Malloc

end OpxCommonUtils
