import CodeCensus.Proofs.Shape
import Mathlib.Data.List.Find
import Mathlib.Data.List.Induction
import Mathlib.Data.List.Perm.Basic

/-!
# Walks follow the shape

Every walk of a forest is the recursion over the shape that its name promises: the stacks yield the
recursive orders, the climb retraces the way down, and the outline shows the facts of each handle.
The bounds on steps never cut a walk short, because distinct handles are no more than slots.
-/

namespace CodeCensus

namespace Rose

variable {α : Type}

mutual

/-- All labels with the children before their parent. -/
def labelsUp : Rose α → List α
  | ⟨label, children⟩ => labelsUpAll children ++ [label]

/-- The labels of trees from left to right, the children before their parent. -/
def labelsUpAll : List (Rose α) → List α
  | [] => []
  | tree :: trees => tree.labelsUp ++ labelsUpAll trees

end

private theorem labelsUpAll_eq (trees : List (Rose α)) :
    labelsUpAll trees = trees.flatMap labelsUp := by
  induction trees with
  | nil => rfl
  | cons tree trees inductionHypothesis =>
    rw [labelsUpAll, inductionHypothesis, List.flatMap_cons]

@[simp] theorem labelsUp_mk (label : α) (children : List (Rose α)) :
    labelsUp ⟨label, children⟩ = children.flatMap labelsUp ++ [label] := by
  rw [labelsUp, labelsUpAll_eq]

/-- The labels from below are the labels. -/
theorem mem_labelsUp {tree : Rose α} {label : α} : label ∈ tree.labelsUp ↔ label ∈ tree.labels := by
  induction tree using induct with
  | node top children inductionHypothesis =>
    simp only [labelsUp_mk, labels_mk, List.mem_append, List.mem_cons, List.mem_flatMap,
      List.not_mem_nil, or_false]
    rw [or_comm]
    exact or_congr_right
      (exists_congr fun child => and_congr_right fun member => inductionHypothesis child member)

/-- The labels from below are the labels in another order. -/
theorem labelsUp_perm (tree : Rose α) : tree.labelsUp.Perm tree.labels := by
  induction tree using induct with
  | node top children inductionHypothesis =>
    rw [labelsUp_mk, labels_mk]
    apply List.perm_append_comm.trans
    exact (List.Perm.flatMap_left children inductionHypothesis).cons top

end Rose

namespace Forest

variable {forest : Forest} {shape subshape : Rose Handle} {parent : Option Handle}
  {position : Position}

/-- Distinct live handles are no more than slots. -/
theorem Shaped.length_le (shaped : forest.Shaped parent shape) (distinct : shape.labels.Nodup) :
    shape.labels.length ≤ forest.slots.size := by
  have within : shape.labels ⊆ List.range forest.slots.size := by
    intro handle member
    obtain ⟨node, live⟩ := shaped.live member
    exact List.mem_range.mpr (lt_fresh_of_node? live)
  calc shape.labels.length ≤ (List.range forest.slots.size).length :=
        distinct.length_le_of_subset within
    _ = forest.slots.size := List.length_range

/-- The stack walk yields the shape on top of its stack, and then the rest. -/
theorem preorderSteps_shaped (shaped : forest.Shaped parent shape) (spare : Nat)
    (stack : List Handle) :
    forest.preorderSteps (shape.labels.length + spare) (shape.label :: stack) =
      shape.labels ++ forest.preorderSteps spare stack := by
  induction shape using Rose.induct generalizing parent spare stack with
  | node handle below inductionHypothesis =>
    obtain ⟨node, live, -, childLinks, -⟩ := shaped.top
    -- The children are walked one after the other, each with the later ones as its stack.
    have inOrder : ∀ trees : List (Rose Handle), (∀ tree ∈ trees, tree ∈ below) →
        forest.preorderSteps ((trees.flatMap Rose.labels).length + spare)
          (trees.map Rose.label ++ stack) =
        trees.flatMap Rose.labels ++ forest.preorderSteps spare stack := by
      intro trees
      induction trees with
      | nil => simp
      | cons tree trees later =>
        intro within
        have rest := later fun other member => within other (by simp [member])
        have first := inductionHypothesis tree (within tree (by simp))
          (shaped.child (within tree (by simp))) ((trees.flatMap Rose.labels).length + spare)
          (trees.map Rose.label ++ stack)
        simp only [List.flatMap_cons, List.length_append, List.map_cons, List.cons_append,
          List.append_assoc, Nat.add_assoc] at first rest ⊢
        rw [first, rest]
    have step : (below.flatMap Rose.labels).length + 1 + spare =
        (below.flatMap Rose.labels).length + spare + 1 := by omega
    rw [Rose.labels_mk, List.length_cons, step, preorderSteps, live]
    simp only [childLinks, List.cons_append]
    rw [inOrder below fun _ member => member]

/-- The pre-order walk from the top of a shape lists its handles in pre-order. -/
theorem Shaped.preorder (shaped : forest.Shaped parent shape) (distinct : shape.labels.Nodup) :
    forest.preorder shape.label = shape.labels := by
  obtain ⟨spare, enough⟩ := Nat.exists_eq_add_of_le (shaped.length_le distinct)
  rw [Forest.preorder, enough, preorderSteps_shaped shaped]
  cases spare <;> simp [preorderSteps]

/-- The marked stack walk yields the shape on top of its stack, and then the rest. -/
theorem postorderSteps_shaped (shaped : forest.Shaped parent shape) (spare : Nat)
    (stack : List (Handle × Bool)) :
    forest.postorderSteps (2 * shape.labels.length + spare) ((shape.label, false) :: stack) =
      shape.labelsUp ++ forest.postorderSteps spare stack := by
  induction shape using Rose.induct generalizing parent spare stack with
  | node handle below inductionHypothesis =>
    obtain ⟨node, live, -, childLinks, -⟩ := shaped.top
    have inOrder : ∀ (trees : List (Rose Handle)) (spare : Nat) (stack : List (Handle × Bool)),
        (∀ tree ∈ trees, tree ∈ below) →
        forest.postorderSteps (2 * (trees.flatMap Rose.labels).length + spare)
          (trees.map (fun tree => (tree.label, false)) ++ stack) =
        trees.flatMap Rose.labelsUp ++ forest.postorderSteps spare stack := by
      intro trees spare stack
      induction trees with
      | nil => simp
      | cons tree trees later =>
        intro within
        have rest := later fun other member => within other (by simp [member])
        have first := inductionHypothesis tree (within tree (by simp))
          (shaped.child (within tree (by simp))) (2 * (trees.flatMap Rose.labels).length + spare)
          (trees.map (fun tree => (tree.label, false)) ++ stack)
        simp only [List.flatMap_cons, List.length_append, List.map_cons, List.cons_append,
          List.append_assoc, Nat.mul_add, Nat.add_assoc] at first rest ⊢
        rw [first, rest]
    -- One step expands the top and one more, after its children, lists it.
    have step : 2 * ((below.flatMap Rose.labels).length + 1) + spare =
        2 * (below.flatMap Rose.labels).length + (spare + 1) + 1 := by omega
    have children := inOrder below (spare + 1) ((handle, true) :: stack) fun _ member => member
    rw [Rose.labels_mk, List.length_cons, step, postorderSteps, live]
    simp only [childLinks, List.map_map, Function.comp_def, Bool.false_eq_true, if_false]
    rw [children, postorderSteps, live]
    simp

/-- The post-order walk from the top of a shape lists its handles in post-order. -/
theorem Shaped.postorder (shaped : forest.Shaped parent shape) (distinct : shape.labels.Nodup) :
    forest.postorder shape.label = shape.labelsUp := by
  obtain ⟨spare, enough⟩ := Nat.exists_eq_add_of_le (shaped.length_le distinct)
  rw [Forest.postorder, enough, Nat.mul_add, postorderSteps_shaped shaped]
  cases spare <;> simp [postorderSteps, Nat.mul_add]

/-- With a level for each node of a shape, the outline is the shape with its facts. -/
theorem Shaped.outlineLevels (shaped : forest.Shaped parent shape) {levels : Nat}
    (enough : shape.labels.length ≤ levels) :
    forest.outlineLevels levels shape.label = some (shape.map forest.facts) := by
  induction shape using Rose.induct generalizing parent levels with
  | node handle below inductionHypothesis =>
    obtain ⟨node, live, -, childLinks, -⟩ := shaped.top
    rw [Rose.labels_mk, List.length_cons] at enough
    obtain ⟨levels, rfl⟩ : ∃ fewer, levels = fewer + 1 := ⟨levels - 1, by omega⟩
    have each : ∀ child ∈ below,
        forest.outlineLevels levels child.label = some (child.map forest.facts) := by
      intro child member
      refine inductionHypothesis child member (shaped.child member) ?_
      have part : child.labels.length ≤ (below.flatMap Rose.labels).length :=
        (List.sublist_flatten_of_mem (List.mem_map_of_mem member)).length_le
      omega
    have below_outlines : (below.map Rose.label).filterMap (forest.outlineLevels levels) =
        below.map (Rose.map forest.facts) := by
      rw [List.filterMap_map, ← List.filterMap_eq_map']
      exact List.filterMap_congr each
    rw [Forest.outlineLevels, live, Option.map_some, childLinks, below_outlines, Rose.map_mk,
      facts_of_node? live]

/-- The outline below the top of a shape. -/
theorem Shaped.outline? (shaped : forest.Shaped parent shape) (distinct : shape.labels.Nodup) :
    forest.outline? shape.label = some (shape.map forest.facts) :=
  shaped.outlineLevels (shaped.length_le distinct)

/-- Climbing from a position retraces the way down. -/
theorem Shaped.climb (shaped : forest.Shaped none shape) (here : shape.at? position = some subshape)
    {steps : Nat} (enough : subshape.label ≤ steps) :
    forest.climb (steps + 1) subshape.label = (shape.spine position).reverse := by
  induction position using List.reverseRecOn generalizing subshape steps with
  | nil =>
    obtain rfl : shape = subshape := Option.some.inj here
    obtain ⟨node, live, parentLink, -⟩ := shaped.top
    simp [Forest.climb, live, parentLink, Rose.spine]
  | append_singleton position index inductionHypothesis =>
    rw [Rose.at?_append] at here
    obtain ⟨above, there, below⟩ := Option.bind_eq_some_iff.mp here
    obtain ⟨child, found, rfl⟩ : ∃ child, above.children[index]? = some child ∧ child = subshape := by
      simpa [Option.bind_eq_some_iff] using below
    obtain ⟨_, aboveShaped⟩ := shaped.at? there
    have member := List.mem_of_getElem? found
    obtain ⟨node, live, parentLink, -⟩ := (aboveShaped.child member).top
    have lower : above.label < child.label := by
      cases aboveShaped with
      | node _ _ _ _ later _ => exact later child member
    obtain ⟨fewer, rfl⟩ := Nat.exists_eq_add_one_of_ne_zero
      (Nat.ne_of_gt (Nat.lt_of_lt_of_le (Nat.zero_lt_of_lt lower) enough))
    have upward : forest.climb (fewer + 1) above.label = (shape.spine position).reverse :=
      inductionHypothesis there (Nat.le_of_lt_succ (Nat.lt_of_lt_of_le lower enough))
    rw [Rose.spine_append there found, List.reverse_append, Forest.climb, live]
    simp [parentLink, upward]

/-- The lineage of a node is the way down to it, read upward. -/
theorem Shaped.lineage (shaped : forest.Shaped none shape)
    (here : shape.at? position = some subshape) :
    forest.lineage subshape.label = (shape.spine position).reverse :=
  shaped.climb here (Nat.le_refl _)

/-- Searching a forest below the top of a shape is searching its outline. -/
theorem Shaped.locate (shaped : forest.Shaped parent shape) (distinct : shape.labels.Nodup)
    (name : String) :
    forest.locate shape.label name =
      (shape.locate? fun handle => (forest.facts handle).name == name).map
        fun node => node.2.label := by
  have sameTest : ∀ handle ∈ shape.labels,
      ((forest.node? handle).any fun node => node.name == name) =
        ((forest.facts handle).name == name) := by
    intro handle member
    obtain ⟨node, live⟩ := shaped.live member
    rw [live, facts_of_node? live]
    rfl
  rw [Forest.locate, shaped.preorder distinct, List.find?_congr sameTest, Rose.labels,
    List.find?_map]
  rfl

/-- A search that starts at a node of the name looked for ends there. -/
theorem Shaped.locate_own {node : Node} (shaped : forest.Shaped parent shape)
    (distinct : shape.labels.Nodup) (live : forest.node? shape.label = some node) :
    forest.locate shape.label node.name = some shape.label := by
  obtain ⟨label, children⟩ := shape
  rw [Forest.locate, shaped.preorder distinct, Rose.labels_mk]
  exact List.find?_cons_of_pos (by simp [live])

end Forest

end CodeCensus
