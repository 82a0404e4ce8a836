import CodeCensus.Outline
import CodeCensus.Tree.Change

/-!
# The live tree

A tree keeps the totals of a project up to date while units come, go and change. Every mutation
names its target twice: it first finds a scope by name from the root, then the target by name
inside that scope. Names repeat; the first match in pre-order wins. A name that is not found is no
error, and the mutation does nothing.

Counters travel upward: what a mutation adds to or takes from a unit is added to or taken from all
its ancestors.
-/

namespace CodeCensus

/-- A forest with one root that is always a module, and its observers. -/
structure Tree where
  forest : Forest
  root : Handle
  observers : Observers
deriving Repr

/-- How a mutation ended: the tree as it is afterwards, and the error if it failed. -/
structure Outcome where
  tree : Tree
  result : Except TreeError Unit

namespace Tree

/-- Sends a change to the observers. -/
def notify (tree : Tree) (change : Change Handle) : Tree :=
  { tree with observers := tree.observers.notify change }

/-- The node under a handle. -/
def node? (tree : Tree) (handle : Handle) : Option Node :=
  tree.forest.node? handle

/-- The first node with the given name. -/
def find? (tree : Tree) (name : String) : Option Handle :=
  tree.forest.locate tree.root name

/-- The first node with the given name inside the first node with the name of the scope. -/
def findWithin? (tree : Tree) (scope name : String) : Option Handle :=
  (tree.find? scope).bind fun handle => tree.forest.locate handle name

/-- The children of a node, none for a stale handle. -/
def children (tree : Tree) (handle : Handle) : List Handle :=
  match tree.node? handle with
  | some node => node.children
  | none => []

/-- The parent of a node. -/
def parent? (tree : Tree) (handle : Handle) : Option Handle :=
  (tree.node? handle).bind Node.parent

/-- The names from the root down to a node. -/
def path (tree : Tree) (handle : Handle) : List String :=
  (tree.forest.lineage handle).reverse.filterMap fun ancestor =>
    (tree.node? ancestor).map Node.name

/-- The handles of all nodes in pre-order. -/
def handles (tree : Tree) : List Handle :=
  match tree.forest.root with
  | some root => tree.forest.preorder root
  | none => []

mutual

/-- Appends an entry with its nested entries below a parent. Counters are copied; ancestors keep
theirs. -/
def materialize (tree : Tree) (parent : Handle) (entry : Entry) :
    Tree × Except TreeError Handle :=
  match entry with
  | ⟨kind, name, counts, nested⟩ =>
    match tree.forest.insert ⟨kind, name, counts, nested⟩ (some parent) with
    | .error error => (tree, .error error)
    | .ok (forest, handle) =>
      let inserted := { tree with forest }
      let announced :=
        inserted.notify (.inserted parent ((inserted.children parent).length - 1) handle)
      if kind.isLeaf then (announced, .ok handle)
      else
        match announced.materializeAll handle nested with
        | (grown, .error error) => (grown, .error error)
        | (grown, .ok _) => (grown, .ok handle)

/-- Appends entries one after the other below a parent, up to the first error. -/
def materializeAll (tree : Tree) (parent : Handle) : List Entry → Tree × Except TreeError Unit
  | [] => (tree, .ok ())
  | entry :: entries =>
    match tree.materialize parent entry with
    | (grown, .error error) => (grown, .error error)
    | (grown, .ok _) => grown.materializeAll parent entries

end

/-- A tree for an entry, which becomes a module with its own counters. -/
def ofEntry (entry : Entry) : Outcome :=
  let forest := Forest.ofRoot { entry with kind := .module, nested := [] }
  let bare : Tree := ⟨forest, 0, .none⟩
  match bare.materializeAll 0 entry.nested with
  | (tree, result) => ⟨tree, result⟩

/-- Adds a difference to one node and reports the change. -/
def adjust (delta : Count) (tree : Tree) (handle : Handle) : Except Fault Tree := do
  match tree.node? handle with
  | none => return tree
  | some node =>
    let adjusted ← node.adjust delta
    return { tree with forest := tree.forest.set handle adjusted }.notify (.changed handle)

/-- Adds a difference to a node and all its ancestors, nearest first. A zero difference changes
and reports nothing. -/
def raise (tree : Tree) (start : Handle) (delta : Count) : Except Fault Tree :=
  if delta.isZero then .ok tree
  else (tree.forest.lineage start).foldlM (adjust delta) tree

/-- Removes a node with its subtree and reports the removal. -/
def uproot (tree : Tree) (handle : Handle) : Outcome :=
  match tree.forest.detach handle with
  | .error error => ⟨tree, .error error⟩
  | .ok (forest, parent, index) =>
    ⟨{ tree with forest }.notify (.removed parent index handle), .ok ()⟩

/-- Appends an entry below the node with the name of the scope. -/
def create (tree : Tree) (scope : String) (entry : Entry) : Except Fault Outcome :=
  match tree.find? scope with
  | none => .ok ⟨tree, .ok ()⟩
  | some parent =>
    match tree.materialize parent entry with
    | (grown, .error error) => .ok ⟨grown, .error error⟩
    | (grown, .ok _) => do
      let raised ← grown.raise parent entry.counts
      return ⟨raised, .ok ()⟩

/-- Replaces the node with the name of an entry, inside a scope, by a new subtree for the entry.
The new subtree is appended to the siblings before the old one leaves. -/
def update (tree : Tree) (scope : String) (entry : Entry) : Except Fault Outcome :=
  match tree.findWithin? scope entry.name with
  | none => .ok ⟨tree, .ok ()⟩
  | some handle =>
    match tree.node? handle with
    | none => .ok ⟨tree, .error .staleNode⟩
    | some old =>
      match old.parent with
      | none => .ok ⟨tree, .error (.rootDetach old.name)⟩
      | some parent => do
        let decrease ← old.counts.minus entry.counts
        match tree.materialize parent entry with
        | (grown, .error error) => return ⟨grown, .error error⟩
        | (grown, .ok _) =>
          let increase ← Count.minus 0 decrease
          let raised ← grown.raise parent increase
          return raised.uproot handle

/-- Gives the node with the previous name, inside a scope, a new name. -/
def rename (tree : Tree) (scope previous name : String) : Outcome :=
  match tree.findWithin? scope previous with
  | none => ⟨tree, .ok ()⟩
  | some handle =>
    match tree.node? handle with
    | none => ⟨tree, .error .staleNode⟩
    | some node =>
      ⟨{ tree with forest := tree.forest.set handle { node with name } }.notify (.changed handle),
        .ok ()⟩

/-- Removes the node with the given name, inside a scope, and takes its counters from its
ancestors. -/
def delete (tree : Tree) (scope name : String) : Except Fault Outcome :=
  match tree.findWithin? scope name with
  | none => .ok ⟨tree, .ok ()⟩
  | some handle =>
    match tree.node? handle with
    | none => .ok ⟨tree, .error .staleNode⟩
    | some target =>
      match target.parent with
      | none => .ok ⟨tree, .error (.rootDetach target.name)⟩
      | some parent => do
        let decrease ← Count.minus 0 target.counts
        let lowered ← tree.raise parent decrease
        return lowered.uproot handle

/-- Opens a mailbox for a new observer. -/
def subscribe (tree : Tree) : Tree × ObserverId :=
  let (observers, owner) := tree.observers.subscribe
  ({ tree with observers }, owner)

/-- The node that stands for a node of the tree that fills a mailbox: itself while the mailbox is
connected, and later the node with the same place, if there ever was one. -/
def standIn? (tree : Tree) (mailbox : Mailbox) (handle : Handle) : Option Handle :=
  match mailbox.former with
  | none => some handle
  | some places => places.counterpart? tree.forest.places handle

/-- What a mailbox holds, oldest first, told of a tree. -/
def tell (tree : Tree) (mailbox : Mailbox) : List (Change (Option Handle)) :=
  mailbox.pending.toList.map (Change.map (tree.standIn? mailbox))

/-- The outline of the whole tree. -/
def outline? (tree : Tree) : Option Outline :=
  tree.forest.outline? tree.root

end Tree

end CodeCensus
