import CodeCensus.Tree.Basic

/-!
# Drawing a tree

A drawing has one line per visible unit in pre-order. A line is the unit's label behind one guide
for each of its ancestors below the root and a branch mark of its own; the mark of the last visible
child is a corner.
-/

namespace CodeCensus

/-- What a drawing shows. -/
structure DrawingOptions where
  /-- Functions have lines of their own. -/
  showFunctions : Bool
  /-- Branches show their counters. -/
  showCounts : Bool
deriving DecidableEq, Repr, Inhabited

/-- The label of a unit: tag and name, and the counters of a branch if they are shown. -/
def label (options : DrawingOptions) (kind : Kind) (name : String) (counts : Count) : String :=
  let title := kind.tag ++ " " ++ name
  if options.showCounts && !kind.isLeaf then
    title ++ " | Classes: " ++ toString counts.classes ++ " | Methods: " ++
      toString counts.functions
  else
    title

/-- The label of a node. -/
def Node.label (options : DrawingOptions) (node : Node) : String :=
  CodeCensus.label options node.kind node.name node.counts

namespace Outline

/-- Whether a unit has a line in a drawing. -/
def isVisible (options : DrawingOptions) (outline : Outline) : Bool :=
  options.showFunctions || !outline.label.kind.isLeaf

mutual

/-- The lines of a unit and all below it, the unit's own first. -/
def lines (options : DrawingOptions) : Outline → List String
  | ⟨facts, children⟩ =>
    label options facts.kind facts.name facts.counts :: childLines options children

/-- The lines of sibling units, each behind its marks. -/
def childLines (options : DrawingOptions) : List Outline → List String
  | [] => []
  | child :: siblings =>
    let later := childLines options siblings
    if child.isVisible options then
      let isLast := !(siblings.any (isVisible options))
      match lines options child with
      | [] => later
      | own :: below =>
        ((if isLast then "└── " else "├── ") ++ own) ::
          below.map ((if isLast then "    " else "│   ") ++ ·) ++ later
    else
      later

end

/-- The drawing of an outline: its lines, each ended by a newline. -/
def draw (options : DrawingOptions) (outline : Outline) : String :=
  String.join ((outline.lines options).map (· ++ "\n"))

end Outline

namespace Tree

/-- The drawing of a tree. -/
def draw (options : DrawingOptions) (tree : Tree) : String :=
  match tree.outline? with
  | some outline => outline.draw options
  | none => "Empty tree\n"

/-- The name of a node in a report. -/
def nameOf (tree : Tree) (handle : Option Handle) : String :=
  match handle.bind tree.node? with
  | some node => node.name
  | none => "<removed>"

/-- The text of a change, told with the names and counters that the tree has now. -/
def describe (tree : Tree) : Change (Option Handle) → String
  | .inserted parent index node =>
    "inserted " ++ tree.nameOf node ++ " at " ++ tree.nameOf parent ++ "[" ++ toString index ++ "]"
  | .removed parent index _ =>
    "removed " ++ tree.nameOf parent ++ "[" ++ toString index ++ "]"
  | .changed handle =>
    match handle.bind tree.node? with
    | some node =>
      if node.isLeaf then "changed " ++ node.name
      else "changed " ++ node.name ++ " (" ++ node.counts.describe ++ ")"
    | none => "changed " ++ tree.nameOf handle

end Tree

end CodeCensus
