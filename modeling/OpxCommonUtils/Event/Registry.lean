import OpxCommonUtils.Misc.Heap
import OpxCommonUtils.Misc.Order

/-!
# The registrations of the event service (`src/std_event_service.cpp`)

A tree with one level for each element of a key; the node a key leads to holds the descriptors of
the clients registered for it. `std::map` is a partial function and `std::set<int>` a finite set
that is iterated in increasing order. A key is a length and an array of `STD_EVENT_KEY_MAX`
elements which the routines index one after the other, so that `list` says what an index
delivers. Allocations succeed.
-/

namespace OpxCommonUtils.Event

/-- `STD_EVENT_KEY_MAX`. -/
def STD_EVENT_KEY_MAX : Nat := 16

/-- `std_event_key_t` (`std_event_service.h:62-65`). -/
structure StdEventKey where
  len : Nat
  eventKey : Fin STD_EVENT_KEY_MAX → UInt32

/-- An element of the key's array. -/
def StdEventKey.list (key : StdEventKey) (ix : Nat) : Exec UInt32 :=
  if h : ix < STD_EVENT_KEY_MAX then .ok (key.eventKey ⟨ix, h⟩) else .error (.badPointer ix)

/-- `std_node_t` (`std_event_service.cpp:79-104`). -/
inductive StdNode where
  | mk (mNodes : UInt32 → Option StdNode) (clients : Finset Int)

namespace StdNode

/-- A node as it is constructed. -/
def empty : StdNode := ⟨fun _ => none, ∅⟩

/-- `m_nodes`. -/
def mNodes : StdNode → UInt32 → Option StdNode
  | ⟨nodes, _⟩ => nodes

/-- `clients`. -/
def clients : StdNode → Finset Int
  | ⟨_, cs⟩ => cs

/-- `m_nodes[node] = n`. -/
def setNode (cur : StdNode) (node : UInt32) (n : StdNode) : StdNode :=
  ⟨fun id => if id = node then some n else cur.mNodes id, cur.clients⟩

/-- `std_node_t::create_node` (`std_event_service.cpp:154-163`). -/
def createNode (cur : StdNode) (node : UInt32) : StdNode := cur.setNode node empty

/-- `std_node_t::insert` (`std_event_service.cpp:165-172`). -/
def insert (cur : StdNode) (fd : Int) : StdNode := ⟨cur.mNodes, cur.clients ∪ {fd}⟩

/-- `std_node_t::remove` (`std_event_service.cpp:174-176`). -/
def remove (cur : StdNode) (fd : Int) : StdNode := ⟨cur.mNodes, cur.clients.erase fd⟩

mutual

/-- `std_node_t::remove_from_tree` (`std_event_service.cpp:199-206`). -/
def removeFromTree (fd : Int) : StdNode → StdNode
  | ⟨nodes, clients⟩ => ⟨fun id => removeFromChild fd (nodes id), clients.erase fd⟩

/-- The child of a node, if there is one. -/
def removeFromChild (fd : Int) : Option StdNode → Option StdNode
  | none => none
  | some n => some (removeFromTree fd n)

end

/-- The node that `std_client_tree::find` leads to from element `ix` of the key on, with `k`
elements to go, changed by `op` (`std_event_service.cpp:221-237`): the tree afterwards, `none`
when there is no such node. -/
def update (list : Nat → Exec UInt32) (create : Bool) (op : StdNode → StdNode) :
    (k ix : Nat) → StdNode → Exec (Option StdNode)
  | 0, _, cur => .ok (some (op cur))
  | k + 1, ix, cur => do
    let id ← list ix
    match cur.mNodes id with
    | some next =>
      let r ← update list create op k (ix + 1) next
      return r.map (cur.setNode id)
    | none =>
      if create then
        let r ← update list create op k (ix + 1) empty
        return r.map ((cur.createNode id).setNode id)
      else return none

end StdNode

/-- `std_client_tree` (`std_event_service.cpp:106-115`). -/
structure StdClientTree where
  head : StdNode

namespace StdClientTree

/-- `std_client_tree::reg_client` (`std_event_service.cpp:239-243`). -/
def regClient (t : StdClientTree) (fd : Int) (list : Nat → Exec UInt32) (len : Nat) :
    Exec (Bool × StdClientTree) := do
  let r ← t.head.update list true (·.insert fd) len 0
  match r with
  | none => return (false, t)
  | some head => return (true, ⟨head⟩)

/-- `std_client_tree::dereg_client` (`std_event_service.cpp:245-250`). -/
def deregClient (t : StdClientTree) (fd : Int) (list : Nat → Exec UInt32) (len : Nat) :
    Exec (Bool × StdClientTree) := do
  let r ← t.head.update list false (·.remove fd) len 0
  match r with
  | none => return (true, t)
  | some head => return (true, ⟨head⟩)

/-- `std_client_tree::remove_from_tree` (`std_event_service.cpp:252-254`). -/
def removeFromTree (t : StdClientTree) (fd : Int) : StdClientTree :=
  ⟨t.head.removeFromTree fd⟩

end StdClientTree

/-! ## Publishing -/

/-- What an attempt to send to a descriptor does to the world, and whether it succeeds. -/
abbrev Send (σ : Type) := σ → Int → Bool × σ

/-- The descriptors tried so far, the attempts with their outcome, and the world. -/
structure Attempts (σ : Type) where
  fds : Finset Int
  log : List (Int × Bool)
  world : σ

/-- One round of the loop of `std_node_t::publish`. After a failed send the caller of
`std_socket_service_client_close` gives up the client; that too is the log's to tell. -/
def attempt {σ : Type} (send : Send σ) (a : Attempts σ) (fd : Int) : Attempts σ :=
  if fd ∈ a.fds then a
  else
    let r := send a.world fd
    ⟨a.fds ∪ {fd}, a.log ++ [(fd, r.1)], r.2⟩

/-- `std_node_t::publish` (`std_event_service.cpp:178-197`). -/
def StdNode.publish {σ : Type} (cur : StdNode) (send : Send σ) (a : Attempts σ) : Attempts σ :=
  (ascending cur.clients).foldl (attempt send) a

/-- The loop of `std_client_tree::publish`, with `k` elements of the key to go. -/
def publishLoop {σ : Type} (send : Send σ) (list : Nat → Exec UInt32) :
    (k ix : Nat) → StdNode → Attempts σ → Exec (Attempts σ)
  | 0, _, _, a => .ok a
  | k + 1, ix, cur, a => do
    let id ← list ix
    match cur.mNodes id with
    | none => return a
    | some next => publishLoop send list k (ix + 1) next (next.publish send a)

/-- `std_client_tree::publish` (`std_event_service.cpp:256-269`): the attempts to send the message,
in order. The tree is only read. -/
def StdClientTree.publish {σ : Type} (t : StdClientTree) (send : Send σ) (world : σ)
    (list : Nat → Exec UInt32) (len : Nat) : Exec (List (Int × Bool) × σ) := do
  let a ← publishLoop send list len 0 t.head ⟨∅, [], world⟩
  return (a.log, a.world)

end OpxCommonUtils.Event
