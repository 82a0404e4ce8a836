import CodeCensus.Outline
import CodeCensus.Proofs.Amendment

/-!
# Shapes of forests

The shape below a node is the rose tree of the handles that its child lists spell out. A forest is
`Formed` from some shapes when they start at nodes without a parent, hold every live handle exactly
once, and agree with the parent links. Nodes keep their links under handles, shapes keep them as
structure, so what holds of a shape needs no argument about links.
-/

namespace CodeCensus

namespace Forest

variable {forest after : Forest} {handle other : Handle}

/-! ### Slots -/

/-- Live nodes stand in the slots given out so far. -/
theorem lt_fresh_of_node? {node : Node} (live : forest.node? handle = some node) :
    handle < forest.fresh := by
  by_contra beyond
  have absent : forest.slots[handle]? = none := Array.getElem?_eq_none (Nat.le_of_not_lt beyond)
  simp [node?, absent] at live

/-- A slot not given out holds no node. -/
theorem node?_of_fresh_le (beyond : forest.fresh ≤ handle) : forest.node? handle = none := by
  have absent : forest.slots[handle]? = none := Array.getElem?_eq_none beyond
  simp [node?, absent]

/-- Writing a slot that was given out changes this slot only. -/
theorem node?_set (node : Node) (inside : handle < forest.fresh) :
    (forest.set handle node).node? other = if other = handle then some node
      else forest.node? other := by
  rw [fresh] at inside
  rw [node?, node?, set, Array.getElem?_setIfInBounds]
  by_cases same : other = handle
  · subst same
    simp [inside]
  · simp [same, Ne.symm same]

/-- A new slot is the next one, and the others stay as they are. -/
theorem node?_append (node : Node) :
    (forest.append node).node? other = if other = forest.fresh then some node
      else forest.node? other := by
  rw [node?, node?, append, fresh, Array.getElem?_push]
  by_cases same : other = forest.slots.size <;> simp [same]

/-- Emptying a slot changes this slot only. -/
theorem node?_drop :
    (forest.drop handle).node? other = if other = handle then none else forest.node? other := by
  rw [node?, node?, drop, Array.getElem?_setIfInBounds]
  by_cases same : other = handle
  · subst same
    by_cases inside : other < forest.slots.size <;> simp [inside]
  · simp [same, Ne.symm same]

@[simp] theorem fresh_set (node : Node) : (forest.set handle node).fresh = forest.fresh := by
  simp [fresh, set]

@[simp] theorem root_set (node : Node) : (forest.set handle node).root = forest.root := rfl

@[simp] theorem fresh_append (node : Node) : (forest.append node).fresh = forest.fresh + 1 := by
  simp [fresh, append]

@[simp] theorem root_append (node : Node) : (forest.append node).root = forest.root := rfl

@[simp] theorem fresh_drop : (forest.drop handle).fresh = forest.fresh := by
  simp [fresh, drop]

@[simp] theorem root_drop : (forest.drop handle).root = forest.root := rfl

/-- What a forest shows of a handle. Stale handles show nothing worth knowing. -/
def facts (forest : Forest) (handle : Handle) : Facts :=
  ((forest.node? handle).map Node.facts).getD default

/-- The facts of a live node are those stored in it. -/
theorem facts_of_node? {node : Node} (live : forest.node? handle = some node) :
    forest.facts handle = node.facts := by
  simp [facts, live]

/-- Slots that hold the same have the same facts. -/
theorem facts_congr (same : after.node? handle = forest.node? handle) :
    after.facts handle = forest.facts handle := by
  rw [facts, facts, same]

/-! ### Shapes -/

/-- The links below a parent spell out a shape. Handles grow on the way down. -/
inductive Shaped (forest : Forest) : Option Handle → Rose Handle → Prop
  | node {parent : Option Handle} {handle : Handle} {node : Node} {below : List (Rose Handle)}
      (live : forest.node? handle = some node)
      (parentLink : node.parent = parent)
      (childLinks : node.children = below.map Rose.label)
      (terminal : node.isLeaf = true → below = [])
      (later : ∀ child ∈ below, handle < child.label)
      (shaped : ∀ child ∈ below, Shaped forest (some handle) child) :
      Shaped forest parent ⟨handle, below⟩

/-- The node at the top of a shape. -/
theorem Shaped.top {parent : Option Handle} {shape : Rose Handle}
    (shaped : forest.Shaped parent shape) :
    ∃ node, forest.node? shape.label = some node ∧ node.parent = parent ∧
      node.children = shape.children.map Rose.label ∧
      (node.isLeaf = true → shape.children = []) := by
  cases shaped with
  | node live parentLink childLinks terminal later shaped =>
    exact ⟨_, live, parentLink, childLinks, terminal⟩

/-- A child of a shape is a shape below its top. -/
theorem Shaped.child {parent : Option Handle} {shape child : Rose Handle}
    (shaped : forest.Shaped parent shape) (member : child ∈ shape.children) :
    forest.Shaped (some shape.label) child := by
  cases shaped with
  | node live parentLink childLinks terminal later shaped => exact shaped child member

/-- Every subtree of a shape is the shape of its own top, below some parent. -/
theorem Shaped.at? {parent : Option Handle} {shape subshape : Rose Handle} {position : Position}
    (shaped : forest.Shaped parent shape) (here : shape.at? position = some subshape) :
    ∃ above, forest.Shaped above subshape := by
  induction position generalizing shape parent with
  | nil =>
    obtain rfl : shape = subshape := Option.some.inj here
    exact ⟨parent, shaped⟩
  | cons index rest inductionHypothesis =>
    obtain ⟨child, found, below⟩ := Option.bind_eq_some_iff.mp here
    exact inductionHypothesis (shaped.child (List.mem_of_getElem? found)) below

/-- Every handle of a shape is live. -/
theorem Shaped.live {parent : Option Handle} {shape : Rose Handle}
    (shaped : forest.Shaped parent shape) (member : handle ∈ shape.labels) :
    ∃ node, forest.node? handle = some node := by
  obtain ⟨position, subshape, here, rfl⟩ := Rose.mem_labels.mp member
  obtain ⟨above, subshaped⟩ := shaped.at? here
  obtain ⟨node, live, -⟩ := subshaped.top
  exact ⟨node, live⟩

/-- Only the nodes of a shape matter to it. -/
theorem Shaped.congr {parent : Option Handle} {shape : Rose Handle}
    (shaped : forest.Shaped parent shape)
    (same : ∀ handle ∈ shape.labels, after.node? handle = forest.node? handle) :
    after.Shaped parent shape := by
  induction shaped with
  | @node parent handle node below live parentLink childLinks terminal later _ inductionHypothesis =>
    rw [Rose.labels_mk] at same
    refine .node ?_ parentLink childLinks terminal later fun child member => ?_
    · rw [same handle List.mem_cons_self, live]
    · refine inductionHypothesis child member fun lower lowerMember => same lower ?_
      exact List.mem_cons_of_mem _ (List.mem_flatMap.mpr ⟨child, member, lowerMember⟩)

/-- A shape stays a shape when one of its subtrees is replaced by another below the same top, as
long as nothing changes elsewhere. -/
theorem Shaped.amend {parent : Option Handle} {shape subshape : Rose Handle} {position : Position}
    {change : Rose Handle → Rose Handle} (shaped : forest.Shaped parent shape)
    (distinct : shape.labels.Nodup) (here : shape.at? position = some subshape)
    (sameTop : (change subshape).label = subshape.label)
    (replaced : ∀ above, forest.Shaped above subshape → after.Shaped above (change subshape))
    (elsewhere : ∀ handle ∈ shape.labels, handle ∉ subshape.labels →
      after.node? handle = forest.node? handle) :
    after.Shaped parent (shape.amend id change position) := by
  induction position generalizing shape parent with
  | nil =>
    obtain rfl : shape = subshape := Option.some.inj here
    exact replaced parent shaped
  | cons index rest inductionHypothesis =>
    obtain ⟨child, found, below⟩ := Option.bind_eq_some_iff.mp here
    obtain ⟨top, children⟩ := shape
    obtain ⟨before, behind, rfl, rfl⟩ := Rose.children_split found
    cases shaped with
    | node live parentLink childLinks terminal later shaped =>
      obtain ⟨notChild, childDistinct, siblings⟩ := Rose.distinct_split distinct
      have inChild : ∀ lower ∈ subshape.labels, lower ∈ child.labels :=
        fun lower member => Rose.labels_subset below member
      have sameLabel : (child.amend id change rest).label = child.label :=
        Rose.label_amend below sameTop
      have topSame : after.node? top = forest.node? top :=
        elsewhere top (Rose.label_mem_labels _) fun member => notChild (inChild top member)
      have old : ∀ sibling ∈ before ++ behind, sibling ∈ before ++ child :: behind := by
        intro sibling member
        simp only [List.mem_append, List.mem_cons] at member ⊢
        tauto
      have siblingShaped : ∀ sibling ∈ before ++ behind, after.Shaped (some top) sibling := by
        refine fun sibling member => (shaped sibling (old sibling member)).congr ?_
        intro lower inSibling
        refine elsewhere lower ?_ fun inSubshape =>
          (siblings sibling member lower inSibling).2 (inChild lower inSubshape)
        rw [Rose.labels_mk]
        exact List.mem_cons_of_mem _
          (List.mem_flatMap.mpr ⟨sibling, old sibling member, inSibling⟩)
      have childShaped : after.Shaped (some top) (child.amend id change rest) := by
        refine inductionHypothesis (shaped child (by simp)) childDistinct below ?_
        exact fun lower member => elsewhere lower (by simp [member])
      have replacedOr : ∀ one ∈ before ++ child.amend id change rest :: behind,
          one ∈ before ++ behind ∨ one = child.amend id change rest := by
        intro one member
        simp only [List.mem_append, List.mem_cons] at member ⊢
        tauto
      rw [Rose.amend, Rose.modify_split]
      refine .node (topSame.trans live) parentLink ?_ ?_ ?_ ?_
      · simp [childLinks, sameLabel]
      · intro leaf
        exact absurd (terminal leaf) (by simp)
      · intro one member
        rcases replacedOr one member with sibling | rfl
        · exact later one (old one sibling)
        · rw [sameLabel]
          exact later child (by simp)
      · intro one member
        rcases replacedOr one member with sibling | rfl
        · exact siblingShaped one sibling
        · exact childShaped

end Forest

end CodeCensus
