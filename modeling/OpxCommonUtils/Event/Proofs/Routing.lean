import OpxCommonUtils.Event.Registry

/-!
# Event routing

The registration tree refines a set of pairs of a descriptor and a key: what a key leads to in
the tree (`clientsAt`) are the descriptors registered for it, whatever sequence of registrations,
deregistrations and removals came before. Publishing tries every descriptor that is registered
for a prefix of the message's key, and each once.
-/

namespace OpxCommonUtils.Event

namespace StdNode

/-- The clients of the node a key leads to, none when there is no such node. -/
def clientsAt : StdNode → List UInt32 → Finset Int
  | cur, [] => cur.clients
  | cur, id :: K =>
    match cur.mNodes id with
    | none => ∅
    | some next => next.clientsAt K

@[simp] theorem mNodes_setNode (cur : StdNode) (id id' : UInt32) (n : StdNode) :
    (cur.setNode id n).mNodes id' = if id' = id then some n else cur.mNodes id' := rfl

@[simp] theorem clients_setNode (cur : StdNode) (id : UInt32) (n : StdNode) :
    (cur.setNode id n).clients = cur.clients := rfl

@[simp] theorem clientsAt_nil (cur : StdNode) : cur.clientsAt [] = cur.clients := rfl

theorem clientsAt_cons (cur : StdNode) (id : UInt32) (K : List UInt32) :
    cur.clientsAt (id :: K) = (cur.mNodes id).elim ∅ (·.clientsAt K) := by
  rw [clientsAt]
  cases cur.mNodes id <;> rfl

@[simp] theorem clientsAt_empty (K : List UInt32) : empty.clientsAt K = ∅ := by
  cases K <;> rfl

/-- A child that is exchanged is seen below its own element only. -/
theorem clientsAt_setNode (cur : StdNode) (id : UInt32) (n : StdNode) (K : List UInt32) :
    (cur.setNode id n).clientsAt K =
      match K with
      | [] => cur.clients
      | id' :: K => if id' = id then n.clientsAt K else cur.clientsAt (id' :: K) := by
  cases K with
  | nil => rfl
  | cons id' K =>
    rw [clientsAt_cons, mNodes_setNode]
    by_cases heq : id' = id
    · simp only [heq, if_true]
      rfl
    · simp only [heq, if_false]
      rw [clientsAt_cons]

/-- `op` changes what a node's own clients are and nothing below. -/
structure Local (op : StdNode → StdNode) (f : Finset Int → Finset Int) : Prop where
  clients : ∀ cur, (op cur).clients = f cur.clients
  nodes : ∀ cur, (op cur).mNodes = cur.mNodes

theorem Local.clientsAt {op : StdNode → StdNode} {f : Finset Int → Finset Int}
    (h : Local op f) (cur : StdNode) (K : List UInt32) :
    (op cur).clientsAt K = if K = [] then f cur.clients else cur.clientsAt K := by
  cases K with
  | nil => exact h.clients cur
  | cons id K => rw [clientsAt_cons, h.nodes, clientsAt_cons, if_neg (by simp)]

/-- The elements `ix`, `ix + 1`, ... of an array are those of `K`. -/
def Lists (list : Nat → Exec UInt32) : (ix : Nat) → List UInt32 → Prop
  | _, [] => True
  | ix, id :: K => list ix = .ok id ∧ Lists list (ix + 1) K

/-- A node that is found, or made, is changed, and the clients of the other nodes are kept; a node
that is not found has no clients. -/
theorem update_spec {list : Nat → Exec UInt32} {op : StdNode → StdNode}
    {f : Finset Int → Finset Int} (hop : Local op f) (create : Bool) (K : List UInt32) :
    ∀ (ix : Nat) (cur : StdNode), Lists list ix K →
      (∃ cur', cur.update list create op K.length ix = .ok (some cur') ∧
          ∀ K', cur'.clientsAt K' = if K' = K then f (cur.clientsAt K) else cur.clientsAt K') ∨
        cur.update list create op K.length ix = .ok none ∧ create = false ∧
          cur.clientsAt K = ∅ := by
  induction K with
  | nil => exact fun ix cur _ => .inl ⟨op cur, rfl, fun K' => hop.clientsAt cur K'⟩
  | cons id K ih =>
    rintro ix cur ⟨hid, hK⟩
    -- the child that is entered stands below `id`, in the node as it is or with a new child
    have hup : ∀ (base next next' : StdNode), base.clients = cur.clients →
        (∀ id', id' ≠ id → base.mNodes id' = cur.mNodes id') →
        cur.clientsAt (id :: K) = next.clientsAt K →
        (∀ K', cur.clientsAt (id :: K') = next.clientsAt K') →
        (∀ K', next'.clientsAt K' = if K' = K then f (next.clientsAt K) else next.clientsAt K') →
        ∀ K', (base.setNode id next').clientsAt K' =
          if K' = id :: K then f (cur.clientsAt (id :: K)) else cur.clientsAt K' := by
      intro base next next' hcl hbase hnext hsub hnext' K'
      rw [clientsAt_setNode]
      cases K' with
      | nil => simpa using hcl
      | cons id' K' =>
        by_cases heq : id' = id
        · subst heq
          simp only [if_true, List.cons.injEq, true_and, hnext', hnext, hsub]
        · simp only [heq, if_false, List.cons.injEq, false_and]
          rw [clientsAt_cons, clientsAt_cons, hbase _ heq]
    rw [List.length_cons, update, hid, exec_bind_ok]
    cases hnode : cur.mNodes id with
    | some next =>
      have hsub : ∀ K', cur.clientsAt (id :: K') = next.clientsAt K' := fun K' => by
        rw [clientsAt_cons, hnode, Option.elim_some]
      rcases ih (ix + 1) next hK with ⟨next', hrun, hnext'⟩ | ⟨hrun, hcreate, hnone⟩
      · refine .inl ⟨cur.setNode id next', by simp only [hrun, exec_bind_ok]; rfl, ?_⟩
        exact hup cur next next' rfl (fun _ _ => rfl) (hsub K) hsub hnext'
      · refine .inr ⟨by simp only [hrun, exec_bind_ok]; rfl, hcreate, ?_⟩
        rw [hsub, hnone]
    | none =>
      have hsub : ∀ K', cur.clientsAt (id :: K') = empty.clientsAt K' := fun K' => by
        rw [clientsAt_cons, hnode, Option.elim_none, clientsAt_empty]
      cases create with
      | false => exact .inr ⟨rfl, rfl, by rw [hsub, clientsAt_empty]⟩
      | true =>
        rcases ih (ix + 1) empty hK with ⟨next', hrun, hnext'⟩ | ⟨-, hcreate, -⟩
        · refine .inl ⟨(cur.createNode id).setNode id next',
            by simp only [if_true, hrun, exec_bind_ok]; rfl, ?_⟩
          refine hup (cur.createNode id) empty next' rfl (fun id' hne => ?_) (hsub K) hsub hnext'
          exact if_neg hne
        · cases hcreate

theorem local_insert (fd : Int) : Local (·.insert fd) (· ∪ {fd}) := ⟨fun _ => rfl, fun _ => rfl⟩

theorem local_remove (fd : Int) : Local (·.remove fd) (·.erase fd) := ⟨fun _ => rfl, fun _ => rfl⟩

/-- A descriptor is removed from every node. -/
theorem clientsAt_removeFromTree (fd : Int) (K : List UInt32) : ∀ cur : StdNode,
    (cur.removeFromTree fd).clientsAt K = (cur.clientsAt K).erase fd := by
  induction K with
  | nil => rintro ⟨nodes, clients⟩; rfl
  | cons id K ih =>
    rintro ⟨nodes, clients⟩
    rw [clientsAt_cons, clientsAt_cons]
    show (removeFromChild fd (nodes id)).elim ∅ (·.clientsAt K) =
      Finset.erase ((nodes id).elim ∅ (·.clientsAt K)) fd
    cases nodes id with
    | none => rfl
    | some next => exact ih next

end StdNode

/-! ## The registry refines a set of registrations -/

/-- The key as the list of its elements. -/
def StdEventKey.toList (key : StdEventKey) : List UInt32 := (List.ofFn key.eventKey).take key.len

/-- A registered descriptor with its key. -/
abbrev Registrations := Set (Int × List UInt32)

/-- A call on the registry. -/
inductive TreeOp where
  | reg (fd : Int) (key : StdEventKey)
  | dereg (fd : Int) (key : StdEventKey)
  | remove (fd : Int)

namespace TreeOp

/-- Keys have 1 to `STD_EVENT_KEY_MAX` elements. -/
def Allowed : TreeOp → Prop
  | .reg _ key => 1 ≤ key.len ∧ key.len ≤ STD_EVENT_KEY_MAX
  | .dereg _ key => 1 ≤ key.len ∧ key.len ≤ STD_EVENT_KEY_MAX
  | .remove _ => True

instance : DecidablePred Allowed
  | .reg _ _ => inferInstanceAs (Decidable (_ ∧ _))
  | .dereg _ _ => inferInstanceAs (Decidable (_ ∧ _))
  | .remove _ => inferInstanceAs (Decidable True)

/-- The call on the tree. -/
def run (t : StdClientTree) : TreeOp → Exec StdClientTree
  | .reg fd key => do
    let (_, t) ← t.regClient fd key.list key.len
    return t
  | .dereg fd key => do
    let (_, t) ← t.deregClient fd key.list key.len
    return t
  | .remove fd => return t.removeFromTree fd

/-- The call on the set of registrations. -/
def spec (R : Registrations) : TreeOp → Registrations
  | .reg fd key => insert (fd, key.toList) R
  | .dereg fd key => R \ {(fd, key.toList)}
  | .remove fd => {x ∈ R | x.1 ≠ fd}

/-- A sequence of calls. -/
def runAll (t : StdClientTree) : List TreeOp → Exec StdClientTree
  | [] => .ok t
  | op :: ops => do
    let t ← op.run t
    runAll t ops

end TreeOp

/-- The tree holds the registrations `R`. -/
def StdClientTree.Registers (t : StdClientTree) (R : Registrations) : Prop :=
  ∀ fd K, fd ∈ t.head.clientsAt K ↔ (fd, K) ∈ R

theorem StdEventKey.length_toList {key : StdEventKey} (h : key.len ≤ STD_EVENT_KEY_MAX) :
    key.toList.length = key.len := by
  rw [toList, List.length_take, List.length_ofFn]
  omega

/-- Indexing the array of a key runs through its elements. -/
theorem StdEventKey.lists {key : StdEventKey} (h : key.len ≤ STD_EVENT_KEY_MAX) :
    StdNode.Lists key.list 0 key.toList := by
  have hgen : ∀ (n ix : Nat), ix + n = key.toList.length →
      StdNode.Lists key.list ix (key.toList.drop ix) := by
    intro n
    induction n with
    | zero =>
      intro ix hix
      rw [List.drop_of_length_le (by omega)]
      trivial
    | succ n ih =>
      intro ix hix
      have hlt : ix < key.toList.length := by omega
      have hmax : ix < STD_EVENT_KEY_MAX := by
        rw [length_toList h] at hlt
        omega
      rw [List.drop_eq_getElem_cons hlt]
      refine ⟨?_, ih (ix + 1) (by omega)⟩
      rw [list, dif_pos hmax]
      simp [toList]
  exact hgen key.toList.length 0 (Nat.zero_add _)

namespace StdClientTree

variable {t : StdClientTree} {R : Registrations}

theorem registers_empty : Registers ⟨StdNode.empty⟩ ∅ := by
  intro fd K
  simp

/-- A call on the tree is the call on the registrations. -/
theorem Registers.run (h : t.Registers R) {op : TreeOp} (hop : op.Allowed) :
    ∃ t', op.run t = .ok t' ∧ t'.Registers (op.spec R) := by
  cases op with
  | reg fd key =>
    rcases StdNode.update_spec (StdNode.local_insert fd) true key.toList 0 t.head
        (key.lists hop.2) with ⟨head, hrun, hat⟩ | ⟨-, hcreate, -⟩
    · rw [key.length_toList hop.2] at hrun
      refine ⟨⟨head⟩, by rw [TreeOp.run, regClient, hrun]; rfl, fun fd' K => ?_⟩
      rw [hat, TreeOp.spec, Set.mem_insert_iff, ← h fd' K, Prod.mk.injEq]
      by_cases hK : K = key.toList
      · simp [hK]
      · simp [hK]
    · cases hcreate
  | dereg fd key =>
    rcases StdNode.update_spec (StdNode.local_remove fd) false key.toList 0 t.head
        (key.lists hop.2) with ⟨head, hrun, hat⟩ | ⟨hrun, -, hnone⟩
    · rw [key.length_toList hop.2] at hrun
      refine ⟨⟨head⟩, by rw [TreeOp.run, deregClient, hrun]; rfl, fun fd' K => ?_⟩
      rw [hat, TreeOp.spec, Set.mem_sdiff, ← h fd' K, Set.mem_singleton_iff, Prod.mk.injEq]
      by_cases hK : K = key.toList
      · simp [hK, and_comm]
      · simp [hK]
    · rw [key.length_toList hop.2] at hrun
      refine ⟨t, by rw [TreeOp.run, deregClient, hrun]; rfl, fun fd' K => ?_⟩
      rw [TreeOp.spec, Set.mem_sdiff, ← h fd' K, Set.mem_singleton_iff, Prod.mk.injEq]
      refine (and_iff_left_of_imp fun hin heq => ?_).symm
      rw [heq.2, hnone] at hin
      simp at hin
  | remove fd =>
    refine ⟨t.removeFromTree fd, rfl, fun fd' K => ?_⟩
    show fd' ∈ (t.head.removeFromTree fd).clientsAt K ↔ _
    rw [StdNode.clientsAt_removeFromTree, Finset.mem_erase, h fd' K]
    exact and_comm

/-- So is a sequence of calls. -/
theorem Registers.runAll {ops : List TreeOp} : ∀ {t : StdClientTree} {R : Registrations},
    t.Registers R → (∀ op ∈ ops, op.Allowed) →
    ∃ t', TreeOp.runAll t ops = .ok t' ∧ t'.Registers (ops.foldl TreeOp.spec R) := by
  induction ops with
  | nil => exact fun h _ => ⟨_, rfl, h⟩
  | cons op ops ih =>
    intro t R h hops
    obtain ⟨t₁, hrun, h₁⟩ := h.run (hops op (by simp))
    obtain ⟨t', hruns, h'⟩ := ih h₁ fun op' hop' => hops op' (by simp [hop'])
    exact ⟨t', by rw [TreeOp.runAll, hrun, exec_bind_ok, hruns], h'⟩

end StdClientTree

/-! ## Attempts -/

namespace Attempts

variable {σ : Type}

/-- The descriptors tried are those of the log, and none is tried twice. -/
structure Ok (a : Attempts σ) : Prop where
  mem : ∀ fd, fd ∈ a.fds ↔ fd ∈ a.log.map Prod.fst
  nodup : (a.log.map Prod.fst).Nodup

theorem ok_nil (w : σ) : (⟨∅, [], w⟩ : Attempts σ).Ok := ⟨by simp, by simp⟩

theorem Ok.attempt {a : Attempts σ} (h : a.Ok) (send : Send σ) (fd : Int) :
    (attempt send a fd).Ok ∧ ∀ fd', fd' ∈ (Event.attempt send a fd).fds ↔ fd' ∈ a.fds ∨ fd' = fd := by
  unfold Event.attempt
  by_cases hin : fd ∈ a.fds
  · rw [if_pos hin]
    refine ⟨h, fun fd' => (or_iff_left_of_imp ?_).symm⟩
    rintro rfl
    exact hin
  · rw [if_neg hin]
    refine ⟨⟨fun fd' => ?_, ?_⟩, fun fd' => by simp [or_comm]⟩
    · rw [Finset.mem_union, Finset.mem_singleton, h.mem fd', List.map_append, List.mem_append]
      simp
    · rw [List.map_append, List.nodup_append']
      refine ⟨h.nodup, by simp, ?_⟩
      intro x hx hx'
      simp only [List.map_cons, List.map_nil, List.mem_singleton] at hx'
      subst hx'
      exact hin ((h.mem x).mpr hx)

/-- A node adds its clients. -/
theorem Ok.publish {a : Attempts σ} (h : a.Ok) (send : Send σ) (cur : StdNode) :
    (cur.publish send a).Ok ∧
      ∀ fd, fd ∈ (cur.publish send a).fds ↔ fd ∈ a.fds ∨ fd ∈ cur.clients := by
  have hgen : ∀ (fds : List Int) (a : Attempts σ), a.Ok →
      (fds.foldl (Event.attempt send) a).Ok ∧
        ∀ fd, fd ∈ (fds.foldl (Event.attempt send) a).fds ↔ fd ∈ a.fds ∨ fd ∈ fds := by
    intro fds
    induction fds with
    | nil => exact fun a h => ⟨h, by simp⟩
    | cons x xs ih =>
      intro a h
      obtain ⟨h₁, hmem₁⟩ := h.attempt send x
      obtain ⟨h₂, hmem₂⟩ := ih _ h₁
      refine ⟨h₂, fun fd => ?_⟩
      rw [List.foldl_cons, hmem₂, hmem₁, List.mem_cons]
      tauto
  obtain ⟨hok, hmem⟩ := hgen (ascending cur.clients) a h
  exact ⟨hok, fun fd => by rw [StdNode.publish, hmem, mem_ascending]⟩

/-- The loop adds the clients of all nodes on the path of the key. -/
theorem Ok.publishLoop (send : Send σ) {list : Nat → Exec UInt32} (K : List UInt32) :
    ∀ {a : Attempts σ} (ix : Nat) (cur : StdNode), a.Ok → StdNode.Lists list ix K →
      ∃ a', Event.publishLoop send list K.length ix cur a = .ok a' ∧ a'.Ok ∧
        ∀ fd, fd ∈ a'.fds ↔ fd ∈ a.fds ∨ ∃ K', K' ≠ [] ∧ K' <+: K ∧ fd ∈ cur.clientsAt K' := by
  induction K with
  | nil =>
    intro a ix cur h _
    refine ⟨a, rfl, h, fun fd => (or_iff_left_of_imp ?_).symm⟩
    rintro ⟨K', hne, hpre, -⟩
    exact absurd (List.prefix_nil.mp hpre) hne
  | cons id K ih =>
    rintro a ix cur h ⟨hid, hK⟩
    rw [List.length_cons, Event.publishLoop, hid, exec_bind_ok]
    have hpfx : ∀ K' : List UInt32, K' ≠ [] → (K' <+: id :: K ↔ ∃ K'', K' = id :: K'' ∧ K'' <+: K)
      := by
      intro K' hne
      cases K' with
      | nil => exact absurd rfl hne
      | cons id' K'' =>
        rw [List.cons_prefix_cons]
        constructor
        · rintro ⟨rfl, hpre⟩
          exact ⟨K'', rfl, hpre⟩
        · rintro ⟨_, heq, hpre⟩
          obtain ⟨rfl, rfl⟩ := List.cons.inj heq
          exact ⟨rfl, hpre⟩
    cases hnode : cur.mNodes id with
    | none =>
      refine ⟨a, rfl, h, fun fd => (or_iff_left_of_imp ?_).symm⟩
      rintro ⟨K', hne, hpre, hin⟩
      obtain ⟨K'', rfl, -⟩ := (hpfx K' hne).mp hpre
      simp [StdNode.clientsAt_cons, hnode] at hin
    | some next =>
      obtain ⟨h₁, hmem₁⟩ := h.publish send next
      obtain ⟨a', hrun, h', hmem'⟩ := ih (ix + 1) next h₁ hK
      refine ⟨a', hrun, h', fun fd => ?_⟩
      rw [hmem', hmem₁, or_assoc]
      refine or_congr_right ⟨?_, ?_⟩
      · rintro (hin | ⟨K', -, hpre, hin⟩)
        · exact ⟨[id], by simp, by simp, by simpa [StdNode.clientsAt_cons, hnode] using hin⟩
        · exact ⟨id :: K', by simp, List.cons_prefix_cons.mpr ⟨rfl, hpre⟩,
            by simpa [StdNode.clientsAt_cons, hnode] using hin⟩
      · rintro ⟨K', hne, hpre, hin⟩
        obtain ⟨K'', rfl, hpre'⟩ := (hpfx K' hne).mp hpre
        simp only [StdNode.clientsAt_cons, hnode, Option.elim_some] at hin
        by_cases hnil : K'' = []
        · subst hnil
          exact .inl hin
        · exact .inr ⟨K'', hnil, hpre', hin⟩

end Attempts

/-- What publishing to a tree that holds `R` tries. -/
theorem StdClientTree.Registers.publish {t : StdClientTree} {R : Registrations}
    (h : t.Registers R) {σ : Type} (send : Send σ) (world : σ) {key : StdEventKey}
    (hlen : key.len ≤ STD_EVENT_KEY_MAX) :
    ∃ log world', t.publish send world key.list key.len = .ok (log, world') ∧
      (log.map Prod.fst).Nodup ∧
      ∀ fd, fd ∈ log.map Prod.fst ↔ ∃ K, K ≠ [] ∧ K <+: key.toList ∧ (fd, K) ∈ R := by
  obtain ⟨a, hrun, hok, hmem⟩ := (Attempts.ok_nil world).publishLoop send key.toList 0
    t.head (key.lists hlen)
  rw [key.length_toList hlen] at hrun
  refine ⟨a.log, a.world, by rw [StdClientTree.publish, hrun]; rfl, hok.nodup, fun fd => ?_⟩
  rw [← hok.mem, hmem]
  simp [h fd]

/-- Event routing: after any sequence of registrations, deregistrations and removals, publishing a
message tries a descriptor if and only if it has a key registered, and not deregistered or removed
since, that is a prefix of the message's key; it tries each once, whatever keys match and however
the attempts end. The tree is an argument that publishing does not change. -/
theorem event_routing (ops : List TreeOp) (hops : ∀ op ∈ ops, op.Allowed) {σ : Type}
    (send : Send σ) (world : σ) (key : StdEventKey) (hlen : key.len ≤ STD_EVENT_KEY_MAX) :
    ∃ t, TreeOp.runAll ⟨StdNode.empty⟩ ops = .ok t ∧
      ∃ log world', t.publish send world key.list key.len = .ok (log, world') ∧
        (∀ fd, fd ∈ log.map Prod.fst ↔
          ∃ K, K <+: key.toList ∧ (fd, K) ∈ ops.foldl TreeOp.spec ∅) ∧
        ∀ fd, (log.map Prod.fst).count fd ≤ 1 := by
  obtain ⟨t, hrun, ht⟩ := StdClientTree.registers_empty.runAll hops
  obtain ⟨log, world', hpub, hnodup, hmem⟩ := ht.publish send world hlen
  -- no registration has an empty key
  have hkeys : ∀ (ops : List TreeOp) (R : Registrations), (∀ op ∈ ops, op.Allowed) →
      (∀ x ∈ R, x.2 ≠ []) → ∀ x ∈ ops.foldl TreeOp.spec R, x.2 ≠ [] := by
    intro ops
    induction ops with
    | nil => exact fun _ _ hR => hR
    | cons op ops ih =>
      intro R hops hR
      refine ih _ (fun op' hop' => hops op' (by simp [hop'])) fun x hx => ?_
      have hop := hops op (by simp)
      cases op with
      | reg fd key =>
        rcases hx with rfl | hx
        · intro hnil
          have hlen := key.length_toList hop.2
          rw [show key.toList = [] from hnil] at hlen
          exact absurd hop.1 (by simp [← hlen])
        · exact hR x hx
      | dereg fd key => exact hR x hx.1
      | remove fd => exact hR x hx.1
  refine ⟨t, hrun, log, world', hpub, fun fd => ?_, fun fd => List.nodup_iff_count_le_one.mp hnodup fd⟩
  rw [hmem]
  constructor
  · rintro ⟨K, -, hpre, hin⟩
    exact ⟨K, hpre, hin⟩
  · rintro ⟨K, hpre, hin⟩
    exact ⟨K, hkeys ops ∅ hops (by simp) _ hin, hpre, hin⟩

/-- A key with the given elements. -/
def StdEventKey.ofList (K : List UInt32) : StdEventKey := ⟨K.length, fun i => K.getD i 0⟩

/-- Client 5 registers for 1 and 1.2, client 7 for 1.3, and for 1.2 for a while. -/
def sampleTreeOps : List TreeOp := [
  .reg 5 (.ofList [1]), .reg 5 (.ofList [1, 2]), .reg 7 (.ofList [1, 3]),
  .reg 7 (.ofList [1, 2]), .dereg 7 (.ofList [1, 2])]

example : (do
    let t ← TreeOp.runAll ⟨StdNode.empty⟩ sampleTreeOps
    t.publish (fun _ _ => (false, ())) () (StdEventKey.ofList [1, 2, 9]).list 3) =
      .ok ([(5, false)], ()) := by decide +kernel

/-- A message for 1.2.9 goes to client 5, once, and not to client 7. -/
theorem event_routing_sample : ∃ t log, TreeOp.runAll ⟨StdNode.empty⟩ sampleTreeOps = .ok t ∧
    t.publish (fun _ _ => (false, ())) () (StdEventKey.ofList [1, 2, 9]).list 3 = .ok (log, ()) ∧
    (log.map Prod.fst).count 5 = 1 ∧ (7 : Int) ∉ log.map Prod.fst := by
  obtain ⟨t, hrun, log, _, hpub, hmem, hcount⟩ := event_routing sampleTreeOps (by decide)
    (fun _ _ => (false, ())) () (.ofList [1, 2, 9]) (by decide)
  have h5 : (5 : Int) ∈ log.map Prod.fst :=
    (hmem 5).mpr ⟨[1], by decide, by simp [sampleTreeOps, TreeOp.spec]; decide⟩
  have h7 : (7 : Int) ∉ log.map Prod.fst := by
    rw [hmem 7]
    rintro ⟨K, hpre, hin⟩
    simp only [sampleTreeOps, List.foldl_cons, List.foldl_nil, TreeOp.spec] at hin
    obtain ⟨hin, hne⟩ := hin
    simp only [Set.mem_insert_iff, Prod.mk.injEq, Set.mem_empty_iff_false, or_false] at hin
    rcases hin with ⟨-, rfl⟩ | ⟨-, rfl⟩ | ⟨h, -⟩ | ⟨h, -⟩
    · exact hne rfl
    · exact absurd hpre (by decide)
    · cases h
    · cases h
  exact ⟨t, log, hrun, hpub,
    le_antisymm (hcount 5) (List.count_pos_iff.mpr h5), h7⟩

end OpxCommonUtils.Event
