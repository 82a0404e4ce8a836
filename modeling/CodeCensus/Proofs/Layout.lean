import CodeCensus.Proofs.Revision
import CodeCensus.Proofs.Target
import CodeCensus.Tree.Drawing

/-!
# The layout of a drawing

A drawing is made level by level: the lines of a child get marks in front of them, and then again the
marks of the level above. Seen from a node, its line is its label behind one mark for each node on
the way down from the root, the last of them its own. Hidden nodes have nothing below them, so what
is left out are single lines.
-/

namespace CodeCensus

/-- The mark of a unit in front of its own label. -/
def branchMark (isLast : Bool) : String :=
  if isLast then "└── " else "├── "

/-- The mark of a unit in front of what is below it. -/
def guide (isLast : Bool) : String :=
  if isLast then "    " else "│   "

/-- What stands in front of a label that a way leads to: a guide for every node of the way but the
last, which has a branch mark. -/
def margin {α : Type} (isLast : α → Bool) : List α → String
  | [] => ""
  | [own] => branchMark (isLast own)
  | above :: way => guide (isLast above) ++ margin isLast way

/-- Whether a node has a line in a drawing. -/
def Node.isVisible (options : DrawingOptions) (node : Node) : Bool :=
  options.showFunctions || !node.isLeaf

namespace Tree

/-- Whether there is a node under a handle that has a line. -/
def isVisible (options : DrawingOptions) (tree : Tree) (handle : Handle) : Bool :=
  (tree.node? handle).any (Node.isVisible options)

/-- The nodes that have a line, in pre-order. -/
def visible (options : DrawingOptions) (tree : Tree) : List Handle :=
  tree.handles.filter (tree.isVisible options)

/-- Whether a node is the last of the visible children of its parent. -/
def isLastVisible (options : DrawingOptions) (tree : Tree) (handle : Handle) : Bool :=
  (tree.parent? handle).any fun parent =>
    ((tree.children parent).filter (tree.isVisible options)).getLast? == some handle

/-- The nodes on the way from the root down to a node, without the root. -/
def descent (tree : Tree) (handle : Handle) : List Handle :=
  (tree.forest.lineage handle).reverse.tail

/-- What stands in front of the label of a node. -/
def margin (options : DrawingOptions) (tree : Tree) (handle : Handle) : String :=
  CodeCensus.margin (tree.isLastVisible options) (tree.descent handle)

/-- The line of a node, empty for a stale handle. -/
def line (options : DrawingOptions) (tree : Tree) (handle : Handle) : String :=
  match tree.node? handle with
  | some node => tree.margin options handle ++ node.label options
  | none => ""

end Tree

/-! ### Ways through a tree -/

namespace Rose

variable {α : Type} {tree subtree : Rose α} {position : Position}

/-- All labels in pre-order, each with the labels on the way to it from below the top. -/
def ways (tree : Rose α) : List (List α × α) :=
  tree.nodes.map fun node => ((tree.spine node.1).tail, node.2.label)

/-- Every way begins at the top. -/
theorem spine_eq_cons (tree : Rose α) (position : Position) :
    tree.spine position = tree.label :: (tree.spine position).tail := by
  cases position <;> rfl

private theorem ways_nodesFrom (label : α) (before trees : List (Rose α)) :
    (nodesFrom before.length trees).map (fun node =>
        ((spine ⟨label, before ++ trees⟩ node.1).tail, node.2.label)) =
      trees.flatMap fun child => child.ways.map fun way => (child.label :: way.1, way.2) := by
  induction trees generalizing before with
  | nil => rfl
  | cons tree trees inductionHypothesis =>
    have later := inductionHypothesis (before ++ [tree])
    rw [List.length_append, List.length_singleton, List.append_assoc, List.singleton_append] at later
    rw [nodesFrom, List.map_append, List.map_map, later, List.flatMap_cons, ways, List.map_map]
    refine congrArg (· ++ _) (List.map_congr_left fun node _ => ?_)
    simp only [Function.comp_apply, spine_split, List.tail_cons]
    rw [spine_eq_cons tree node.1, List.tail_cons]

@[simp] theorem ways_mk (label : α) (children : List (Rose α)) :
    ways ⟨label, children⟩ = ([], label) ::
      children.flatMap fun child => child.ways.map fun way => (child.label :: way.1, way.2) := by
  have below := ways_nodesFrom label [] children
  rw [List.length_nil, List.nil_append] at below
  rw [ways, nodes, List.map_cons, below]
  rfl

private theorem ways_labels (tree : Rose α) : tree.ways.map Prod.snd = tree.labels := by
  rw [ways, labels, List.map_map]
  rfl

end Rose

namespace Outline

/-- The lines of a unit are its label and the lines of its children. -/
theorem lines_mk (options : DrawingOptions) (facts : Facts) (children : List Outline) :
    lines options ⟨facts, children⟩ =
      label options facts.kind facts.name facts.counts :: childLines options children := by
  rw [lines]

/-- A hidden child has no lines. -/
theorem childLines_hidden {options : DrawingOptions} {child : Outline} (siblings : List Outline)
    (hidden : child.isVisible options = false) :
    childLines options (child :: siblings) = childLines options siblings := by
  simp [childLines, hidden]

/-- The lines of a visible child are marked, and those of its siblings follow. -/
theorem childLines_visible {options : DrawingOptions} {child : Outline} {siblings : List Outline}
    {isLast : Bool} {own : String} {below : List String} (visible : child.isVisible options = true)
    (last : isLast = !(siblings.any (isVisible options)))
    (lines : child.lines options = own :: below) :
    childLines options (child :: siblings) = (branchMark isLast ++ own) ::
      (below.map (guide isLast ++ ·) ++ childLines options siblings) := by
  subst last
  simp [childLines, visible, lines, branchMark, guide]

variable {α : Type} {facts : α → Facts} {isVisible isLast : α → Bool} {options : DrawingOptions}

/-- A tree of labels some of which are hidden: what is hidden has nothing below it, and the last that
is visible among siblings is known. -/
inductive Ranked (isVisible isLast : α → Bool) : Rose α → Prop
  | node {label : α} {children : List (Rose α)}
      (last : ∀ before child after, children = before ++ child :: after →
        isVisible child.label = true →
          isLast child.label = !(after.any fun sibling => isVisible sibling.label))
      (hidden : ∀ child ∈ children, isVisible child.label = false → child.children = [])
      (ranked : ∀ child ∈ children, Ranked isVisible isLast child) :
      Ranked isVisible isLast ⟨label, children⟩

/-- A visible label behind what stands in front of it. -/
def entryLine (options : DrawingOptions) (facts : α → Facts) (isLast : α → Bool)
    (way : List α × α) : String :=
  margin isLast way.1 ++
    label options (facts way.2).kind (facts way.2).name (facts way.2).counts

/-- The marks of a child come in front of its own label, and its guide in front of all else. -/
theorem entryLine_cons (child : α) (way : List α × α) :
    entryLine options facts isLast (child :: way.1, way.2) =
      (if way.1 = [] then branchMark (isLast child) else guide (isLast child)) ++
        entryLine options facts isLast way := by
  obtain ⟨_ | ⟨next, rest⟩, label⟩ := way
  · simp [entryLine, margin]
  · simp [entryLine, margin, String.append_assoc]

/-- The lines of siblings. -/
theorem childLines_eq (trees : List (Rose α))
    (sees : ∀ child ∈ trees, Outline.isVisible options (child.map facts) = isVisible child.label)
    (last : ∀ before child after, trees = before ++ child :: after →
      isVisible child.label = true →
        isLast child.label = !(after.any fun sibling => isVisible sibling.label))
    (hidden : ∀ child ∈ trees, isVisible child.label = false → child.children = [])
    (each : ∀ child ∈ trees, isVisible child.label = true →
      Outline.lines options (child.map facts) =
        (child.ways.filter fun way => isVisible way.2).map (entryLine options facts isLast)) :
    childLines options (trees.map (Rose.map facts)) =
      ((trees.flatMap fun child => child.ways.map fun way => (child.label :: way.1, way.2)).filter
        fun way => isVisible way.2).map (entryLine options facts isLast) := by
  induction trees with
  | nil => rfl
  | cons child siblings inductionHypothesis =>
    rw [List.forall_mem_cons] at sees
    have later := inductionHypothesis sees.2
      (fun before other after split => last (child :: before) other after (by rw [split]; rfl))
      (fun other member => hidden other (List.mem_cons_of_mem _ member))
      (fun other member => each other (List.mem_cons_of_mem _ member))
    have isLastHere := last [] child siblings rfl
    have any : (siblings.map (Rose.map facts)).any (Outline.isVisible options) =
        siblings.any fun sibling => isVisible sibling.label := by
      rw [List.any_map, Bool.eq_iff_iff, List.any_eq_true, List.any_eq_true]
      refine exists_congr fun sibling => and_congr_right fun member => ?_
      rw [Function.comp_apply, sees.2 sibling member]
    have lines := each child List.mem_cons_self
    have single := hidden child List.mem_cons_self
    rw [List.map_cons, List.flatMap_cons, List.filter_append, List.map_append, ← later]
    obtain ⟨top, children⟩ := child
    cases isTop : isVisible top with
    | false =>
      obtain rfl : children = [] := single isTop
      rw [childLines_hidden _ (sees.1.trans isTop)]
      simp [isTop]
    | true =>
      have own := lines isTop
      have mark : isLast top = !((siblings.map (Rose.map facts)).any (Outline.isVisible options)) := by
        rw [any]
        exact isLastHere isTop
      -- Every way but that of the child itself leads on, so only the child gets the branch mark.
      have further : ∀ way ∈ children.flatMap fun child => child.ways.map fun way =>
          (child.label :: way.1, way.2), way.1 ≠ [] := by
        intro way member
        obtain ⟨child, -, inChild⟩ := List.mem_flatMap.mp member
        obtain ⟨lower, -, rfl⟩ := List.mem_map.mp inChild
        exact List.cons_ne_nil _ _
      rw [Rose.ways_mk] at own ⊢
      rw [List.filter_cons_of_pos (by exact isTop), List.map_cons] at own
      rw [childLines_visible (sees.1.trans isTop) mark own, List.map_cons,
        List.filter_cons_of_pos (by exact isTop), List.map_cons, List.filter_map, List.map_map,
        List.map_map, List.cons_append]
      refine congrArg₂ List.cons (entryLine_cons top ([], top)).symm (congrArg (· ++ _) ?_)
      refine List.map_congr_left fun way member => ?_
      have marked : entryLine options facts isLast (top :: way.1, way.2) = _ := entryLine_cons top way
      rw [if_neg (further way (List.mem_of_mem_filter member))] at marked
      exact marked.symm

/-- The lines of a tree are those of the labels that are visible. -/
theorem lines_eq {shape : Rose α} (ranked : Ranked isVisible isLast shape)
    (same : ∀ label ∈ shape.labels, Outline.isVisible options ⟨facts label, []⟩ = isVisible label)
    (top : isVisible shape.label = true) :
    Outline.lines options (shape.map facts) =
      (shape.ways.filter fun way => isVisible way.2).map (entryLine options facts isLast) := by
  induction ranked with
  | @node label children last hidden ranked inductionHypothesis =>
    have sees : ∀ child ∈ children,
        Outline.isVisible options (child.map facts) = isVisible child.label := by
      intro child member
      rw [← same _ (Rose.mem_labels_of_child member (Rose.label_mem_labels child)), Outline.isVisible,
        Outline.isVisible, Rose.label_map]
    have below := childLines_eq children sees last hidden fun child member =>
      inductionHypothesis child member fun other inChild =>
        same other (Rose.mem_labels_of_child member inChild)
    rw [Rose.map_mk, lines_mk, below, Rose.ways_mk, List.filter_cons_of_pos (by exact top),
      List.map_cons]
    simp [entryLine, margin]

end Outline

/-- An item is the last that passes a test exactly if none behind it does. -/
theorem getLast?_filter_split {α : Type} [DecidableEq α] {test : α → Bool} {item : α}
    {before after : List α} (passes : test item = true) (notBehind : item ∉ after) :
    (((before ++ item :: after).filter test).getLast? == some item) = !(after.any test) := by
  rw [List.filter_append, List.filter_cons_of_pos passes, List.getLast?_append]
  cases behind : after.filter test with
  | nil =>
    have none : after.any test = false := by
      simpa [List.filter_eq_nil_iff] using behind
    simp [none]
  | cons first rest =>
    have some : after.any test = true := by
      have member : first ∈ after.filter test := behind ▸ List.mem_cons_self
      obtain ⟨inAfter, firstPasses⟩ := List.mem_filter.mp member
      exact List.any_eq_true.mpr ⟨first, inAfter, firstPasses⟩
    have apart : (first :: rest).getLast (List.cons_ne_nil _ _) ≠ item := by
      intro same
      have isLast := List.getLast_mem (List.cons_ne_nil first rest)
      rw [same, ← behind] at isLast
      exact notBehind (List.mem_of_mem_filter isLast)
    simp only [some, List.getLast?_eq_some_getLast (List.cons_ne_nil _ _),
      Option.some_or, Bool.not_true, beq_eq_false_iff_ne, ne_eq, Option.some.injEq]
    exact apart

/-- Only functions are hidden. -/
theorem Node.isLeaf_of_hidden {options : DrawingOptions} {node : Node}
    (hidden : node.isVisible options = false) : node.isLeaf = true := by
  rw [Node.isVisible, Bool.or_eq_false_iff, Bool.not_eq_false'] at hidden
  exact hidden.2

/-! ### What stands in front of a label -/

/-- The mark before a unit is four characters wide. -/
theorem branchMark_length (isLast : Bool) : (branchMark isLast).length = 4 := by
  cases isLast <;> rfl

/-- The guide beside what is below a unit is as wide as the mark. -/
theorem guide_length (isLast : Bool) : (guide isLast).length = 4 := by
  cases isLast <;> rfl

/-- Four characters for each node of the way. -/
theorem margin_length {α : Type} (isLast : α → Bool) (way : List α) :
    (margin isLast way).length = 4 * way.length := by
  induction way with
  | nil => rfl
  | cons own rest inductionHypothesis =>
    cases rest with
    | nil => exact branchMark_length _
    | cons next rest =>
      rw [margin, String.length_append, guide_length, inductionHypothesis, List.length_cons (a := own)]
      · omega
      · exact List.cons_ne_nil _ _

/-- A margin holds no newline. -/
theorem margin_oneLine {α : Type} (isLast : α → Bool) (way : List α) :
    '\n' ∉ (margin isLast way).toList := by
  induction way with
  | nil => simp [margin]
  | cons own rest inductionHypothesis =>
    cases rest with
    | nil => cases last : isLast own <;> simp [margin, branchMark, last]
    | cons next rest =>
      cases last : isLast own <;>
        simpa [margin, guide, last, String.toList_append] using inductionHypothesis

/-- The last mark is that of the last node of the way. -/
theorem margin_concat {α : Type} (isLast : α → Bool) (way : List α) (own : α) :
    ∃ front, margin isLast (way ++ [own]) = front ++ branchMark (isLast own) := by
  induction way with
  | nil => exact ⟨"", by simp [margin]⟩
  | cons above way inductionHypothesis =>
    obtain ⟨front, rest⟩ := inductionHypothesis
    refine ⟨guide (isLast above) ++ front, ?_⟩
    rw [List.cons_append, margin, rest, String.append_assoc]
    simp

/-- The margin ends in a corner exactly for a last child. -/
theorem corner_suffix_margin {α : Type} (isLast : α → Bool) (way : List α) (own : α) :
    "└── ".toList <:+ (margin isLast (way ++ [own])).toList ↔ isLast own = true := by
  obtain ⟨front, same⟩ := margin_concat isLast way own
  rw [same, String.toList_append]
  constructor
  · intro corner
    have mark : "└── ".toList <:+ (branchMark (isLast own)).toList :=
      List.suffix_of_suffix_length_le corner (List.suffix_append _ _) (by
        rw [String.length_toList, String.length_toList, branchMark_length]
        rfl)
    cases last : isLast own with
    | true => rfl
    | false =>
      rw [last] at mark
      exact absurd mark (by decide)
  · intro last
    rw [last]
    exact List.suffix_append _ _

/-! ### The lines of a tree -/

namespace Tree

variable {tree : Tree} {shape : Rose Handle} {outline : Outline} {options : DrawingOptions}
  {handle : Handle} {node : Node}

private theorem isVisible_of_live (live : tree.node? handle = some node) :
    tree.isVisible options handle = node.isVisible options := by
  rw [isVisible, live, Option.any_some]

/-- In a tree the last visible children are known, and what is hidden is a leaf. -/
theorem ranked_of_shaped {parent : Option Handle} (shaped : tree.forest.Shaped parent shape)
    (distinct : shape.labels.Nodup) :
    Outline.Ranked (tree.isVisible options) (tree.isLastVisible options) shape := by
  induction shaped with
  | @node parent handle node below live parentLink childLinks terminal later shaped
      inductionHypothesis =>
    have inside : ∀ child ∈ below, child.labels.Nodup := by
      rw [Rose.labels_mk, List.nodup_cons] at distinct
      exact (List.nodup_flatMap.mp distinct.2).1
    refine .node ?_ ?_ fun child member => inductionHypothesis child member (inside child member)
    · rintro before child after rfl isVisible
      obtain ⟨own, ownLive, link, -⟩ := (shaped child (by simp)).top
      have apart : child.label ∉ after.map Rose.label := by
        obtain ⟨-, -, siblings⟩ := Rose.distinct_split distinct
        intro member
        obtain ⟨sibling, isAfter, same⟩ := List.mem_map.mp member
        refine (siblings sibling (List.mem_append_right _ isAfter) sibling.label
          (Rose.label_mem_labels sibling)).2 ?_
        rw [same]
        exact Rose.label_mem_labels child
      have parentIs : tree.parent? child.label = some handle := by
        rw [parent?, node?, ownLive, Option.bind_some, link]
      have children : tree.children handle =
          before.map Rose.label ++ child.label :: after.map Rose.label := by
        simp [Tree.children, node?, live, childLinks]
      rw [isLastVisible, parentIs, Option.any_some, children, getLast?_filter_split isVisible apart,
        List.any_map]
      rfl
    · intro child member hidden
      obtain ⟨own, ownLive, -, -, terminal⟩ := (shaped child member).top
      rw [isVisible_of_live ownLive] at hidden
      exact terminal (Node.isLeaf_of_hidden hidden)

/-- A way through the shape leads down to the node at its end. -/
theorem Shows.descent_eq (shows : tree.Shows shape outline) {position : Position}
    {subshape : Rose Handle} (here : shape.at? position = some subshape) :
    tree.descent subshape.label = (shape.spine position).tail := by
  rw [descent, shows.shaped.lineage here, List.reverse_reverse]

/-- The lines of the outline are the lines of the visible nodes. -/
theorem Shows.lines_eq (shows : tree.Shows shape outline) (options : DrawingOptions) :
    outline.lines options = (tree.visible options).map (tree.line options) := by
  have seen : ∀ handle ∈ shape.labels, Outline.isVisible options ⟨tree.forest.facts handle, []⟩ =
      tree.isVisible options handle := by
    intro handle member
    obtain ⟨node, live⟩ := shows.shaped.live member
    rw [isVisible_of_live live, Forest.facts_of_node? live]
    rfl
  have top : tree.isVisible options shape.label = true := by
    rw [← seen _ (Rose.label_mem_labels shape), Outline.isVisible]
    have kind := shows.module
    rw [← shows.facts, Rose.label_map] at kind
    simp [kind, Kind.isLeaf]
  have lines := Outline.lines_eq (ranked_of_shaped shows.shaped shows.distinct) seen top
  rw [shows.facts] at lines
  rw [lines, visible, shows.handles, ← Rose.ways_labels, List.filter_map, List.map_map]
  refine List.map_congr_left fun way member => ?_
  obtain ⟨⟨position, subshape⟩, isNode, rfl⟩ := List.mem_map.mp (List.mem_of_mem_filter member)
  have here := Rose.mem_nodes.mp isNode
  obtain ⟨node, live⟩ := shows.shaped.live (Rose.label_mem_of_at? here)
  simp only [Function.comp_apply, Outline.entryLine, line, node?, live, margin,
    shows.descent_eq here, Node.label, Forest.facts_of_node? live]
  rfl

/-- The names of all nodes are single lines. -/
def OneLineNames (tree : Tree) : Prop :=
  ∀ handle node, tree.node? handle = some node → '\n' ∉ node.name.toList

end Tree

/-- A number is written with digits and a sign. -/
theorem mem_repr {number : Int} {c : Char} (member : c ∈ number.repr.toList) :
    c = '-' ∨ c.isDigit = true := by
  have digits : ∀ natural : Nat, c ∈ natural.repr.toList → c.isDigit = true := by
    intro natural written
    rw [Nat.repr, String.toList_ofList] at written
    exact Nat.isDigit_of_mem_toDigits (by decide) (by decide) written
  cases number with
  | ofNat natural => exact .inr (digits natural member)
  | negSucc natural =>
    rw [Int.repr, String.toList_append, List.mem_append] at member
    rcases member with sign | written
    · exact .inl (List.mem_singleton.mp sign)
    · exact .inr (digits _ written)

private theorem repr_oneLine (number : Int) : '\n' ∉ number.repr.toList := by
  intro member
  rcases mem_repr member with sign | digit
  · exact absurd sign (by decide)
  · exact absurd digit (by decide)

/-- A label is a single line if the name in it is. -/
theorem label_oneLine (options : DrawingOptions) (kind : Kind) {name : String} (counts : Count)
    (oneLine : '\n' ∉ name.toList) : '\n' ∉ (label options kind name counts).toList := by
  have tag : '\n' ∉ kind.tag.toList := by
    obtain (_ | _ | _ | _) | _ := kind <;> decide
  unfold label
  split <;> simp [tag, oneLine, repr_oneLine]

/-- Lines that are each ended by a newline come back when the text is split at the newlines. -/
theorem splitOn_lines {lines : List String} (each : ∀ line ∈ lines, '\n' ∉ line.toList) :
    (String.join (lines.map (· ++ "\n"))).toList.splitOn '\n' = lines.map String.toList ++ [[]] := by
  induction lines with
  | nil => rfl
  | cons line lines inductionHypothesis =>
    rw [List.forall_mem_cons] at each
    rw [List.map_cons, String.join_cons, String.toList_append, String.toList_append,
      List.append_assoc]
    exact (List.splitOn_append_cons_self_of_not_mem each.1 _).trans
      (congrArg _ (inductionHypothesis each.2))

end CodeCensus
