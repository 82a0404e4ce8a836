import CodeCensus.Tree.Basic

/-!
# Auditing a tree

The counters of a branch should equal what its children contribute: one function for a function,
its counters and one class for a class, its counters for any other unit. The audit reports the
branches where they do not, and corrects nothing.
-/

namespace CodeCensus

/-- What a node contributes to the counters of its parent. -/
def Node.contribution (node : Node) : Except Fault Count :=
  match node.payload with
  | .leaf => .ok ⟨0, 1⟩
  | .branch .classLike counts => counts.plus ⟨1, 0⟩
  | .branch _ counts => .ok counts

/-- A branch whose counters differ from what its children contribute. -/
structure Mismatch where
  node : Handle
  stored : Count
  expected : Count
deriving DecidableEq, Repr

namespace Tree

/-- What the live children among some handles contribute together. -/
def expectedCount (tree : Tree) (children : List Handle) : Except Fault Count := do
  let contributions ← (children.filterMap tree.node?).mapM Node.contribution
  Count.total contributions

/-- The mismatch at a node, if it is a branch and has one. -/
def mismatch? (tree : Tree) (handle : Handle) : Except Fault (Option Mismatch) :=
  match tree.node? handle with
  | none => .ok none
  | some node =>
    if node.isLeaf then .ok none
    else do
      let expected ← tree.expectedCount node.children
      return if expected = node.counts then none else some ⟨handle, node.counts, expected⟩

/-- All mismatches of a tree, in post-order. -/
def recount (tree : Tree) : Except Fault (List Mismatch) := do
  let found ← (tree.forest.postorder tree.root).mapM tree.mismatch?
  return found.filterMap id

end Tree

end CodeCensus
