import CodeCensus.Rose
import Mathlib.Data.List.Basic
import Mathlib.Data.List.Flatten
import Mathlib.Data.List.Nodup

/-!
# Positions in rose trees

A position is the list of child indices on the way down from the root. `nodes` lists all subtrees in
pre-order with their positions, and `amend` changes the subtree at one position together with the
labels on the way to it. Every change that the live tree makes is one `amend`, so the lemmas here
are all that later modules know about changing a tree in the middle.
-/

namespace CodeCensus

/-- The child indices on the way down from the root. -/
abbrev Position := List Nat

namespace Rose

variable {α β : Type}

/-- A property that passes from the children of a node to the node holds of every tree. -/
@[elab_as_elim]
theorem induct {motive : Rose α → Prop}
    (node : ∀ label children, (∀ child ∈ children, motive child) → motive ⟨label, children⟩) :
    ∀ tree, motive tree
  | ⟨label, children⟩ => node label children fun child _ => induct node child

mutual

/-- The tree with every label replaced by its image. -/
def map (image : α → β) : Rose α → Rose β
  | ⟨label, children⟩ => ⟨image label, mapAll image children⟩

/-- The trees with every label replaced by its image. -/
def mapAll (image : α → β) : List (Rose α) → List (Rose β)
  | [] => []
  | tree :: trees => tree.map image :: mapAll image trees

end

mutual

/-- All subtrees in pre-order, each with its position. -/
def nodes : Rose α → List (Position × Rose α)
  | ⟨label, children⟩ => ([], ⟨label, children⟩) :: nodesFrom 0 children

/-- All subtrees of the children from the given index on. -/
def nodesFrom (index : Nat) : List (Rose α) → List (Position × Rose α)
  | [] => []
  | tree :: trees =>
    tree.nodes.map (fun node => (index :: node.1, node.2)) ++ nodesFrom (index + 1) trees

end

/-- All labels in pre-order. -/
def labels (tree : Rose α) : List α :=
  tree.nodes.map fun node => node.2.label

/-- The subtree at a position. -/
def at? (tree : Rose α) : Position → Option (Rose α)
  | [] => some tree
  | index :: rest => tree.children[index]?.bind fun child => child.at? rest

/-- The first subtree in pre-order whose label has a property, with its position. -/
def locate? (property : α → Bool) (tree : Rose α) : Option (Position × Rose α) :=
  tree.nodes.find? fun node => property node.2.label

/-- The tree with one change to the subtree at a position and another to every label on the way
there. -/
def amend (way : α → α) (change : Rose α → Rose α) : Position → Rose α → Rose α
  | [], tree => change tree
  | index :: rest, ⟨label, children⟩ =>
    ⟨way label, children.modify index (amend way change rest)⟩

/-- The labels on the way from the root down to a position, both ends included. -/
def spine (tree : Rose α) : Position → List α
  | [] => [tree.label]
  | index :: rest =>
    tree.label ::
      match tree.children[index]? with
      | some child => child.spine rest
      | none => []

/-! ### Equations -/

private theorem mapAll_eq (image : α → β) (trees : List (Rose α)) :
    mapAll image trees = trees.map (map image) := by
  induction trees with
  | nil => rfl
  | cons tree trees inductionHypothesis => rw [mapAll, inductionHypothesis, List.map_cons]

@[simp] theorem map_mk (image : α → β) (label : α) (children : List (Rose α)) :
    map image ⟨label, children⟩ = ⟨image label, children.map (map image)⟩ := by
  rw [map, mapAll_eq]

@[simp] theorem label_map (image : α → β) (tree : Rose α) :
    (tree.map image).label = image tree.label := by
  cases tree
  simp

@[simp] theorem children_map (image : α → β) (tree : Rose α) :
    (tree.map image).children = tree.children.map (map image) := by
  cases tree
  simp

private theorem labels_nodesFrom (index : Nat) (trees : List (Rose α)) :
    (nodesFrom index trees).map (fun node => node.2.label) = trees.flatMap labels := by
  induction trees generalizing index with
  | nil => rfl
  | cons tree trees inductionHypothesis =>
    rw [nodesFrom, List.map_append, inductionHypothesis, List.map_map, List.flatMap_cons]
    rfl

@[simp] theorem labels_mk (label : α) (children : List (Rose α)) :
    labels ⟨label, children⟩ = label :: children.flatMap labels := by
  rw [labels, nodes, List.map_cons, labels_nodesFrom]

/-- The label of the top is one of the labels. -/
theorem label_mem_labels (tree : Rose α) : tree.label ∈ tree.labels := by
  cases tree
  simp

@[simp] theorem at?_nil (tree : Rose α) : tree.at? [] = some tree := rfl

@[simp] theorem at?_cons (tree : Rose α) (index : Nat) (rest : Position) :
    tree.at? (index :: rest) = tree.children[index]?.bind fun child => child.at? rest := rfl

/-- To go one way and then another is to go both. -/
theorem at?_append (tree : Rose α) (upper lower : Position) :
    tree.at? (upper ++ lower) = (tree.at? upper).bind fun subtree => subtree.at? lower := by
  induction upper generalizing tree with
  | nil => rfl
  | cons index upper inductionHypothesis =>
    cases here : tree.children[index]? with
    | none => simp [here]
    | some child => simp [here, inductionHypothesis]

/-- A child at an index splits the children into those before and those after it. -/
theorem children_split {trees : List (Rose α)} {index : Nat} {child : Rose α}
    (here : trees[index]? = some child) :
    ∃ before after, trees = before ++ child :: after ∧ before.length = index := by
  obtain ⟨bound, rfl⟩ := List.getElem?_eq_some_iff.mp here
  refine ⟨trees.take index, trees.drop (index + 1), ?_, ?_⟩
  · rw [List.getElem_cons_drop, List.take_append_drop]
  · rw [List.length_take, Nat.min_eq_left (Nat.le_of_lt bound)]

/-- A change at the place of a child changes the child. -/
theorem modify_split (change : Rose α → Rose α) (before after : List (Rose α)) (child : Rose α) :
    (before ++ child :: after).modify before.length change = before ++ change child :: after := by
  induction before with
  | nil => rfl
  | cons tree before inductionHypothesis => simp [inductionHypothesis]

/-! ### Membership -/

private theorem mem_nodesFrom {index : Nat} {trees : List (Rose α)} {position : Position}
    {subtree : Rose α} :
    (position, subtree) ∈ nodesFrom index trees ↔
      ∃ offset rest child, position = (index + offset) :: rest ∧ trees[offset]? = some child ∧
        (rest, subtree) ∈ child.nodes := by
  induction trees generalizing index with
  | nil => simp [nodesFrom]
  | cons tree trees inductionHypothesis =>
    simp only [nodesFrom, List.mem_append, List.mem_map, Prod.mk.injEq, Prod.exists,
      inductionHypothesis]
    constructor
    · rintro (⟨rest, child, member, rfl, rfl⟩ | ⟨offset, rest, child, rfl, here, member⟩)
      · exact ⟨0, rest, tree, rfl, rfl, member⟩
      · refine ⟨offset + 1, rest, child, ?_, here, member⟩
        rw [Nat.add_assoc, Nat.add_comm 1]
    · rintro ⟨_ | offset, rest, child, rfl, here, member⟩
      · obtain rfl : tree = child := Option.some.inj here
        exact .inl ⟨rest, subtree, member, rfl, rfl⟩
      · refine .inr ⟨offset, rest, child, ?_, here, member⟩
        rw [Nat.add_assoc, Nat.add_comm 1]

/-- The listed nodes are exactly the subtrees at positions. -/
theorem mem_nodes {tree subtree : Rose α} {position : Position} :
    (position, subtree) ∈ tree.nodes ↔ tree.at? position = some subtree := by
  induction tree using induct generalizing position with
  | node label children inductionHypothesis =>
    cases position with
    | nil =>
      simp only [nodes, List.mem_cons, Prod.mk.injEq, true_and, mem_nodesFrom, at?_nil,
        Option.some.injEq]
      constructor
      · rintro (rfl | ⟨_, _, _, impossible, _⟩)
        · rfl
        · cases impossible
      · intro same
        exact .inl same.symm
    | cons index rest =>
      simp only [nodes, List.mem_cons, Prod.mk.injEq, reduceCtorEq, false_and, false_or,
        mem_nodesFrom, at?_cons, Nat.zero_add, List.cons.injEq]
      constructor
      · rintro ⟨_, _, child, ⟨rfl, rfl⟩, here, member⟩
        rw [here, Option.bind_some]
        exact (inductionHypothesis child (List.mem_of_getElem? here)).mp member
      · intro found
        obtain ⟨child, here, below⟩ := Option.bind_eq_some_iff.mp found
        exact ⟨index, rest, child, ⟨rfl, rfl⟩, here,
          (inductionHypothesis child (List.mem_of_getElem? here)).mpr below⟩

/-- The labels of a tree are those of its subtrees. -/
theorem mem_labels {tree : Rose α} {label : α} :
    label ∈ tree.labels ↔ ∃ position subtree, tree.at? position = some subtree ∧
      subtree.label = label := by
  simp [labels, ← mem_nodes]

/-- What is located stands where it is located. -/
theorem at?_of_locate? {property : α → Bool} {tree subtree : Rose α} {position : Position}
    (found : tree.locate? property = some (position, subtree)) :
    tree.at? position = some subtree :=
  mem_nodes.mp (List.mem_of_find?_eq_some found)

/-- The labels of a subtree are labels of the tree. -/
theorem labels_subset {tree subtree : Rose α} {position : Position}
    (here : tree.at? position = some subtree) {label : α} (member : label ∈ subtree.labels) :
    label ∈ tree.labels := by
  obtain ⟨lower, found, below, rfl⟩ := mem_labels.mp member
  refine mem_labels.mpr ⟨position ++ lower, found, ?_, rfl⟩
  rw [at?_append, here, Option.bind_some, below]

/-- The label of a subtree is a label of the tree. -/
theorem label_mem_of_at? {tree subtree : Rose α} {position : Position}
    (here : tree.at? position = some subtree) : subtree.label ∈ tree.labels :=
  labels_subset here (label_mem_labels subtree)

/-- The labels of a subtree are distinct if those of the tree are. -/
theorem distinct_of_at? {tree subtree : Rose α} {position : Position}
    (distinct : tree.labels.Nodup) (here : tree.at? position = some subtree) :
    subtree.labels.Nodup := by
  induction position generalizing tree with
  | nil =>
    obtain rfl : tree = subtree := Option.some.inj here
    exact distinct
  | cons index rest inductionHypothesis =>
    obtain ⟨child, found, below⟩ := Option.bind_eq_some_iff.mp here
    obtain ⟨label, children⟩ := tree
    rw [labels_mk, List.nodup_cons] at distinct
    exact inductionHypothesis
      ((List.nodup_flatMap.mp distinct.2).1 child (List.mem_of_getElem? found)) below

/-- The top labels of trees are among all their labels, in order. -/
theorem map_label_sublist (trees : List (Rose α)) :
    (trees.map label).Sublist (trees.flatMap labels) := by
  induction trees with
  | nil => exact .slnil
  | cons tree trees inductionHypothesis =>
    obtain ⟨label, children⟩ := tree
    rw [List.map_cons, List.flatMap_cons, labels_mk, List.cons_append]
    exact (inductionHypothesis.trans (List.sublist_append_right _ _)).cons_cons label

/-! ### Relabelling -/

/-- Two functions that agree on the labels map the tree alike. -/
theorem map_congr {first second : α → β} {tree : Rose α}
    (same : ∀ label ∈ tree.labels, first label = second label) :
    tree.map first = tree.map second := by
  induction tree using induct with
  | node label children inductionHypothesis =>
    have atRoot : first label = second label := same label (by simp)
    have below : children.map (map first) = children.map (map second) := by
      refine List.map_congr_left fun child member => ?_
      refine inductionHypothesis child member fun lower lowerMember => same lower ?_
      rw [labels_mk]
      exact List.mem_cons_of_mem _ (List.mem_flatMap.mpr ⟨child, member, lowerMember⟩)
    rw [map_mk, map_mk, atRoot, below]

/-- The image of a subtree stands where the subtree stood. -/
theorem at?_map (image : α → β) (tree : Rose α) (position : Position) :
    (tree.map image).at? position = (tree.at? position).map (map image) := by
  induction position generalizing tree with
  | nil => rfl
  | cons index rest inductionHypothesis =>
    cases here : tree.children[index]? with
    | none => simp [here]
    | some child => simp [here, inductionHypothesis]

private theorem nodesFrom_map (image : α → β) (trees : List (Rose α))
    (each : ∀ tree ∈ trees, (tree.map image).nodes =
      tree.nodes.map fun node => (node.1, node.2.map image)) (index : Nat) :
    nodesFrom index (trees.map (map image)) =
      (nodesFrom index trees).map fun node => (node.1, node.2.map image) := by
  induction trees generalizing index with
  | nil => rfl
  | cons tree trees inductionHypothesis =>
    have later := inductionHypothesis (fun other member => each other (by simp [member]))
      (index + 1)
    simp [nodesFrom, each tree (by simp), later]

private theorem nodes_map (image : α → β) (tree : Rose α) :
    (tree.map image).nodes = tree.nodes.map fun node => (node.1, node.2.map image) := by
  induction tree using induct with
  | node label children inductionHypothesis =>
    simp [nodes, nodesFrom_map image children inductionHypothesis]

/-- To locate an image is to locate what has it. -/
theorem locate?_map (image : α → β) (property : β → Bool) (tree : Rose α) :
    (tree.map image).locate? property =
      (tree.locate? fun label => property (image label)).map fun node =>
        (node.1, node.2.map image) := by
  have sameTest : (fun node : Position × Rose β => property node.2.label) ∘
      (fun node : Position × Rose α => (node.1, node.2.map image)) =
        fun node => property (image node.2.label) := by
    funext node
    exact congrArg property (label_map image node.2)
  rw [locate?, nodes_map, List.find?_map, locate?, sameTest]

end Rose

end CodeCensus
