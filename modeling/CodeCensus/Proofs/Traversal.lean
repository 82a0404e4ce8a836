import CodeCensus.Proofs.Evolution

/-!
# Walks and the recursions that they unroll

A walk keeps the handles still to visit on a stack. In every forest that comes to be, what it lists
is the recursive order below its start: the pre-order is the node and then the pre-orders of its
children, the post-order the post-orders of the children and then the node. A walk has taken
everything it put on the stack off again after so many rounds, whatever lies below, so it ends. A
search by name stops at the first node of the name that the pre-order comes to.
-/

namespace CodeCensus

open Relation (ReflTransGen)

namespace Forest

variable {forest : Forest} {handle : Handle} {node : Node}

/-- The forests that come to be: by calls to a new forest, or below a tree that evolved from an
entry. -/
def Occurs (forest : Forest) : Prop :=
  (∃ (start : Forest) (calls : List Call), start.Initial ∧ forest = start.replay calls) ∨
    ∃ tree : Tree, tree.Reachable ∧ forest = tree.forest

/-- Every forest that occurs is in shape. -/
theorem Occurs.formed (occurs : forest.Occurs) : ∃ shapes, forest.Formed shapes := by
  rcases occurs with ⟨start, calls, initial, rfl⟩ | ⟨tree, reachable, rfl⟩
  · obtain ⟨shapes, formed⟩ := initial.formed
    exact (formed.replay calls).1
  · obtain ⟨shape, outline, shows⟩ := reachable.shows
    exact ⟨_, shows.formed⟩

/-- Every node of a formed forest is at the top of a shape. -/
theorem Formed.subshape {shapes : List (Rose Handle)} (formed : forest.Formed shapes)
    (live : forest.node? handle = some node) :
    ∃ parent shape, shape.label = handle ∧ forest.Shaped parent shape ∧ shape.labels.Nodup := by
  obtain ⟨shape, member, position, subshape, here, rfl⟩ := formed.position live
  obtain ⟨parent, shaped⟩ := (formed.shaped shape member).at? here
  exact ⟨parent, subshape, rfl, shaped, Rose.distinct_of_at? (formed.distinct_of_mem member) here⟩

/-! ### Orders -/

/-- What the walks from a live node list: each node of its subtree once, in the order of the
recursion over the child lists. -/
structure Listed (forest : Forest) (handle : Handle) (node : Node) : Prop where
  preorder : forest.preorder handle = handle :: node.children.flatMap forest.preorder
  postorder : forest.postorder handle = node.children.flatMap forest.postorder ++ [handle]
  preorderOnce : (forest.preorder handle).Nodup
  postorderOnce : (forest.postorder handle).Nodup
  preorderMembers : ∀ lower,
    lower ∈ forest.preorder handle ↔ ReflTransGen forest.IsChild handle lower
  postorderMembers : ∀ lower,
    lower ∈ forest.postorder handle ↔ ReflTransGen forest.IsChild handle lower

private theorem Formed.listed {shapes : List (Rose Handle)} (formed : forest.Formed shapes)
    (live : forest.node? handle = some node) : Listed forest handle node := by
  obtain ⟨parent, shape, rfl, shaped, distinct⟩ := formed.subshape live
  obtain ⟨top, topLive, -, childLinks, -⟩ := shaped.top
  obtain rfl : top = node := Option.some.inj (topLive.symm.trans live)
  have childDistinct : ∀ child ∈ shape.children, child.labels.Nodup := by
    obtain ⟨label, children⟩ := shape
    rw [Rose.labels_mk, List.nodup_cons] at distinct
    exact (List.nodup_flatMap.mp distinct.2).1
  have before : top.children.flatMap forest.preorder = shape.children.flatMap Rose.labels := by
    rw [childLinks, List.flatMap_map]
    exact List.flatMap_congr fun child member =>
      (shaped.child member).preorder (childDistinct child member)
  have behind : top.children.flatMap forest.postorder =
      shape.children.flatMap Rose.labelsUp := by
    rw [childLinks, List.flatMap_map]
    exact List.flatMap_congr fun child member =>
      (shaped.child member).postorder (childDistinct child member)
  have down := shaped.preorder distinct
  have up := shaped.postorder distinct
  constructor
  · rw [down, before]
    cases shape
    exact Rose.labels_mk _ _
  · rw [up, behind]
    cases shape
    exact Rose.labelsUp_mk _ _
  · rwa [down]
  · rw [up]
    exact shape.labelsUp_perm.nodup_iff.mpr distinct
  · intro lower
    rw [down, shaped.mem_labels_iff]
  · intro lower
    rw [up, Rose.mem_labelsUp, shaped.mem_labels_iff]

private theorem preorder_stale (gone : forest.node? handle = none) :
    forest.preorder handle = [] := by
  rw [preorder]
  cases forest.slots.size with
  | zero => rfl
  | succ steps => cases steps <;> simp [preorderSteps, gone]

private theorem postorder_stale (gone : forest.node? handle = none) :
    forest.postorder handle = [] := by
  rw [postorder]
  cases 2 * forest.slots.size with
  | zero => rfl
  | succ steps => cases steps <;> simp [postorderSteps, gone]

/-! ### Rounds -/

/-- After so many rounds a pre-order walk has listed what it lists from a handle and is left with
the stack below the handle. -/
theorem Formed.preorder_rounds {shapes : List (Rose Handle)} (formed : forest.Formed shapes)
    (handle : Handle) : ∃ rounds, ∀ spare stack,
      forest.preorderSteps (rounds + spare) (handle :: stack) =
        forest.preorder handle ++ forest.preorderSteps spare stack := by
  cases live : forest.node? handle with
  | none =>
    refine ⟨1, fun spare stack => ?_⟩
    rw [preorder_stale live, Nat.add_comm, preorderSteps, live, List.nil_append]
  | some node =>
    obtain ⟨parent, shape, rfl, shaped, distinct⟩ := formed.subshape live
    refine ⟨shape.labels.length, fun spare stack => ?_⟩
    rw [shaped.preorder distinct]
    exact preorderSteps_shaped shaped spare stack

/-- After so many rounds a post-order walk has listed what it lists from a handle and is left with
the stack below the handle. -/
theorem Formed.postorder_rounds {shapes : List (Rose Handle)} (formed : forest.Formed shapes)
    (handle : Handle) : ∃ rounds, ∀ spare stack,
      forest.postorderSteps (rounds + spare) ((handle, false) :: stack) =
        forest.postorder handle ++ forest.postorderSteps spare stack := by
  cases live : forest.node? handle with
  | none =>
    refine ⟨1, fun spare stack => ?_⟩
    rw [postorder_stale live, Nat.add_comm, postorderSteps, live, List.nil_append]
  | some node =>
    obtain ⟨parent, shape, rfl, shaped, distinct⟩ := formed.subshape live
    refine ⟨2 * shape.labels.length, fun spare stack => ?_⟩
    rw [shaped.postorder distinct]
    exact postorderSteps_shaped shaped spare stack

/-! ### Searches -/

/-- The first node of a name that the pre-order from a handle comes to. -/
def FirstNamed (forest : Forest) (start : Handle) (name : String) (found : Handle) : Prop :=
  ∃ before after, forest.preorder start = before ++ found :: after ∧
    (forest.node? found).map Node.name = some name ∧
    ∀ earlier ∈ before, (forest.node? earlier).map Node.name ≠ some name

private theorem isNamed_iff {name : String} :
    ((forest.node? handle).any fun node => node.name == name) = true ↔
      (forest.node? handle).map Node.name = some name := by
  cases forest.node? handle <;> simp

private theorem locate_eq_some {start found : Handle} {name : String} :
    forest.locate start name = some found ↔ forest.FirstNamed start name found := by
  rw [locate, List.find?_eq_some_iff_append, isNamed_iff]
  constructor
  · rintro ⟨named, before, after, listed, unnamed⟩
    refine ⟨before, after, listed, named, fun earlier member => ?_⟩
    exact mt isNamed_iff.mpr (by simpa using unnamed earlier member)
  · rintro ⟨before, after, listed, named, unnamed⟩
    refine ⟨named, before, after, listed, fun earlier member => ?_⟩
    simpa using mt isNamed_iff.mp (unnamed earlier member)

/-- A search finds a node when the pre-order comes to one of the name. -/
theorem isSome_locate_iff {start : Handle} {name : String} :
    (forest.locate start name).isSome ↔
      ∃ lower ∈ forest.preorder start, (forest.node? lower).map Node.name = some name := by
  rw [locate, List.find?_isSome]
  simp only [isNamed_iff]

/-- In every forest that comes to be, the walks from a live node list its subtree in the orders of
the recursion and list nothing from a stale handle, both end, and a search finds the first node of a
name in the pre-order, if the subtree has one. What is found inside a scope of a tree is the first
node of its name below the first node with the name of the scope. -/
theorem walks_follow_the_recursion :
    (∀ forest : Forest, forest.Occurs → ∀ handle,
      (∀ node, forest.node? handle = some node → Listed forest handle node) ∧
      (forest.node? handle = none → forest.preorder handle = [] ∧ forest.postorder handle = []) ∧
      (∃ rounds, ∀ spare stack, forest.preorderSteps (rounds + spare) (handle :: stack) =
        forest.preorder handle ++ forest.preorderSteps spare stack) ∧
      (∃ rounds, ∀ spare stack, forest.postorderSteps (rounds + spare) ((handle, false) :: stack) =
        forest.postorder handle ++ forest.postorderSteps spare stack) ∧
      ∀ name,
        ((forest.locate handle name).isSome ↔ ∃ lower node,
          ReflTransGen forest.IsChild handle lower ∧ forest.node? lower = some node ∧
            node.name = name) ∧
        ∀ found, forest.locate handle name = some found ↔ forest.FirstNamed handle name found) ∧
    ∀ (tree : Tree) (scope name : String) (found : Handle),
      tree.findWithin? scope name = some found ↔
        ∃ upper, tree.forest.FirstNamed tree.root scope upper ∧
          tree.forest.FirstNamed upper name found := by
  constructor
  · intro forest occurs handle
    obtain ⟨shapes, formed⟩ := occurs.formed
    refine ⟨fun node => formed.listed, fun gone => ⟨preorder_stale gone, postorder_stale gone⟩,
      formed.preorder_rounds handle, formed.postorder_rounds handle, fun name => ⟨?_, fun found =>
        locate_eq_some⟩⟩
    rw [isSome_locate_iff]
    cases live : forest.node? handle with
    | none =>
      rw [preorder_stale live]
      refine ⟨by simp, ?_⟩
      rintro ⟨lower, node, reached, found, -⟩
      -- Child lists lead nowhere from a stale handle.
      rcases ReflTransGen.cases_head reached with rfl | ⟨_, ⟨top, topLive, -⟩, -⟩
      · cases live.symm.trans found
      · cases live.symm.trans topLive
    | some top =>
      simp only [(formed.listed live).preorderMembers, Option.map_eq_some_iff]
      exact exists_congr fun lower => exists_and_left.symm
  · intro tree scope name found
    rw [Tree.findWithin?, Option.bind_eq_some_iff]
    exact exists_congr fun upper => and_congr locate_eq_some locate_eq_some

/-- Two trees in one forest. Of the first a branch is gone, and the search below it for a name that
both of its branches held goes on to the other. -/
theorem detached_branch_is_passed_over :
    let forest := Forest.empty.replay [.insert ⟨.module, "p", 0, []⟩ none,
      .insert ⟨.package, "a", 0, []⟩ (some 0), .insert ⟨.package, "b", 0, []⟩ (some 0),
      .insert (.function "x") (some 1), .insert (.function "x") (some 2),
      .insert ⟨.module, "q", 0, []⟩ none, .detach 1]
    forest.Occurs ∧ forest.preorder 0 = [0, 2, 4] ∧ forest.postorder 0 = [4, 2, 0] ∧
      forest.preorder 1 = [] ∧ forest.locate 0 "x" = some 4 ∧ forest.FirstNamed 0 "x" 4 ∧
      ∀ lower, ReflTransGen forest.IsChild 0 lower → lower ∈ [0, 2, 4] := by
  intro forest
  have occurs : forest.Occurs := .inl ⟨.empty, _, .inl rfl, rfl⟩
  obtain ⟨listed, -, -, -, searched⟩ := walks_follow_the_recursion.1 forest occurs 0
  obtain ⟨-, stale, -⟩ := walks_follow_the_recursion.1 forest occurs 1
  have found : forest.locate 0 "x" = some 4 := by decide
  refine ⟨occurs, rfl, rfl, (stale rfl).1, found, ((searched "x").2 4).mp found, ?_⟩
  intro lower reached
  exact ((listed _ rfl).preorderMembers lower).mpr reached

end Forest

end CodeCensus
