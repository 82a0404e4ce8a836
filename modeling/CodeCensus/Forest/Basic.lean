import CodeCensus.Entry
import CodeCensus.Forest.Place

/-!
# Forests of nodes under handles

A forest keeps nodes in slots. The handle of a node is the number of its slot; a removed node
leaves its slot empty for good, so no handle is ever given to a second node. Parents own
their children; the handle of the parent serves upward walks only.
-/

namespace CodeCensus

/-- What sets the nodes of a forest apart: branches carry counters, leaves carry nothing. -/
inductive Payload
  | branch (kind : BranchKind) (counts : Count)
  | leaf
deriving DecidableEq, Repr

/-- A node of a forest. -/
structure Node where
  name : String
  payload : Payload
  /-- Missing for a root. -/
  parent : Option Handle
  /-- In the order of insertion. -/
  children : List Handle
deriving DecidableEq, Repr

namespace Node

/-- The node for an entry, without its nested entries. A function loses its counters. -/
def ofEntry (entry : Entry) (parent : Option Handle) : Node where
  name := entry.name
  payload :=
    match entry.kind with
    | .branch kind => .branch kind entry.counts
    | .function => .leaf
  parent := parent
  children := []

/-- The kind of unit that a node stands for. -/
def kind (node : Node) : Kind :=
  match node.payload with
  | .branch kind _ => .branch kind
  | .leaf => .function

/-- The counters of a node; a leaf always reports zero. -/
def counts (node : Node) : Count :=
  match node.payload with
  | .branch _ counts => counts
  | .leaf => 0

/-- Whether a node is a function leaf. -/
def isLeaf (node : Node) : Bool :=
  node.kind.isLeaf

/-- The node with a difference added to its counters. A leaf has none and stays as it is. -/
def adjust (delta : Count) (node : Node) : Except Fault Node :=
  match node.payload with
  | .branch kind counts => do
    let counts ← counts.plus delta
    return { node with payload := .branch kind counts }
  | .leaf => .ok node

end Node

/-- Requests that contradict the shape of a forest or tree. -/
inductive TreeError
  /-- A function leaf was asked to hold children. -/
  | notABranch (name : String)
  /-- A root was asked to leave its place. -/
  | rootDetach (name : String)
  /-- A handle does not name a node any more. -/
  | staleNode
deriving DecidableEq, Repr

/-- The text of an error. -/
def TreeError.message : TreeError → String
  | .notABranch name => "node '" ++ name ++ "' is a function leaf and cannot hold children"
  | .rootDetach name => "root node '" ++ name ++ "' cannot be detached or replaced"
  | .staleNode => "stale node handle"

/-- Nodes in slots, the root inserted last, and the places of the nodes. -/
structure Forest where
  slots : Array (Option Node)
  root : Option Handle
  places : Places
deriving Repr

namespace Forest

/-- A forest without nodes. -/
def empty : Forest := ⟨#[], none, .none⟩

/-- The node under a handle, if the handle is live. -/
def node? (forest : Forest) (handle : Handle) : Option Node :=
  (forest.slots[handle]?).join

/-- How many nodes are live. -/
def size (forest : Forest) : Nat :=
  forest.slots.countP Option.isSome

/-- Whether no node is live. -/
def isEmpty (forest : Forest) : Bool :=
  forest.size == 0

/-- The handle that the next inserted node gets. -/
def fresh (forest : Forest) : Handle :=
  forest.slots.size

/-- Puts a node into an existing slot. -/
def set (forest : Forest) (handle : Handle) (node : Node) : Forest :=
  { forest with slots := forest.slots.setIfInBounds handle (some node) }

/-- Appends a slot with a node. -/
def append (forest : Forest) (node : Node) : Forest :=
  { forest with slots := forest.slots.push (some node), places := forest.places.take }

/-- Empties the slot of a live node. -/
def drop (forest : Forest) (handle : Handle) : Forest :=
  { forest with
    slots := forest.slots.setIfInBounds handle none
    places := forest.places.leave handle }

/-- Inserts the node for an entry as the last child of a parent, or as a new root without one.
The nested entries are left out. -/
def insert (forest : Forest) (entry : Entry) :
    Option Handle → Except TreeError (Forest × Handle)
  | none =>
    .ok ({ forest.append (.ofEntry entry none) with root := some forest.fresh }, forest.fresh)
  | some parent =>
    match forest.node? parent with
    | none => .error .staleNode
    | some node =>
      if node.isLeaf then .error (.notABranch node.name)
      else
        let handle := forest.fresh
        let linked := forest.set parent { node with children := node.children ++ [handle] }
        .ok (linked.append (.ofEntry entry (some parent)), handle)

/-- The forest of a single root for an entry, whose nested entries are left out. -/
def ofRoot (entry : Entry) : Forest :=
  { empty.append (.ofEntry entry none) with root := some 0 }

end Forest

end CodeCensus
