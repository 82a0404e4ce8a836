import CodeCensus.Forest.Walk
import CodeCensus.Rose

/-!
# Outlines

An outline is the plain tree of names, kinds and counters that a forest shows below one of its
nodes, free of handles.
-/

namespace CodeCensus

/-- What an outline shows of a unit. -/
structure Facts where
  kind : Kind
  name : String
  counts : Count
deriving DecidableEq, Repr, Inhabited

/-- Units with the units inside them, in order. -/
abbrev Outline := Rose Facts

/-- What an outline shows of a node. -/
def Node.facts (node : Node) : Facts :=
  ⟨node.kind, node.name, node.counts⟩

/-- The outline below a handle, down to the given number of levels. -/
def Forest.outlineLevels (forest : Forest) : Nat → Handle → Option Outline
  | 0, _ => none
  | levels + 1, handle =>
    (forest.node? handle).map fun node =>
      ⟨node.facts, node.children.filterMap (forest.outlineLevels levels)⟩

/-- The outline below a live handle. A path downward visits each slot at most once, so the number
of slots bounds the levels. -/
def Forest.outline? (forest : Forest) (handle : Handle) : Option Outline :=
  forest.outlineLevels forest.slots.size handle

end CodeCensus
