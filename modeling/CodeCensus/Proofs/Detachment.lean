import CodeCensus.Proofs.Traversal

/-!
# What a detachment takes away

Detaching unlinks a node first and collects what stands below it afterwards, in a forest that is cut
in two by then. What goes is still the subtree that stood below the node before: the shape of the
node does not contain its parent, so the unlinking leaves it as it was. All other nodes of the
forest, under the same root or another, keep everything but their place in one list of children.
-/

namespace CodeCensus.Forest

open Relation (ReflTransGen)

variable {forest : Forest} {handle parent : Handle} {node : Node}

/-- The subtree of a node left its place between the siblings in front of it and those behind. -/
structure Departs (before after : Forest) (handle parent : Handle) (front back : List Handle) :
    Prop where
  siblings : ∃ above, before.node? parent = some above ∧ above.children = front ++ handle :: back ∧
    after.node? parent = some { above with children := front ++ back }
  subtree : ∀ lower, ReflTransGen before.IsChild handle lower → after.node? lower = none
  others : ∀ other, other ≠ parent → ¬ReflTransGen before.IsChild handle other →
    after.node? other = before.node? other
  size : ∃ gone : List Handle, gone.Nodup ∧
    (∀ lower, lower ∈ gone ↔ ReflTransGen before.IsChild handle lower) ∧
    after.size + gone.length = before.size
  root : after.root = before.root

/-- Cutting off a child of a shape takes as many nodes from the forest as the child has. -/
theorem Formed.size_pruned {after : Forest} {shapes others : List (Rose Handle)}
    {shape subshape child : Rose Handle} {position : Position} {index : Nat}
    (formed : forest.Formed (shapes ++ shape :: others))
    (here : shape.at? position = some subshape) (found : subshape.children[index]? = some child)
    (pruned : Pruned forest after subshape.label index child) :
    after.size + child.labels.length = forest.size := by
  have fewer := (Rose.labels_prune here found).length_eq
  rw [List.length_append] at fewer
  rw [formed.size, (formed.pruned here found pruned).size]
  simp only [List.flatMap_append, List.flatMap_cons, List.length_append]
  omega

/-- A node with a parent leaves with its subtree. -/
theorem Formed.departs {shapes : List (Rose Handle)} (formed : forest.Formed shapes)
    (live : forest.node? handle = some node) (link : node.parent = some parent) :
    ∃ after front back, forest.detach handle = .ok (after, parent, front.length) ∧
      Departs forest after handle parent front back := by
  obtain ⟨shape, member, position, target, here, rfl⟩ := formed.position live
  have shaped := formed.shaped shape member
  rcases shaped.parent_at? here live with
    ⟨-, top⟩ | ⟨upper, index, above, -, there, found, aboveLink, -⟩
  · cases link.symm.trans top
  · obtain rfl : above.label = parent := Option.some.inj (aboveLink.symm.trans link)
    have distinct := formed.distinct_of_mem member
    obtain ⟨_, targetShaped⟩ := shaped.at? here
    obtain ⟨_, aboveShaped⟩ := shaped.at? there
    obtain ⟨after, detached, cut⟩ := detach_pruned shaped distinct there found
    obtain ⟨others, later, rfl⟩ := List.append_of_mem member
    have shrunk := formed.size_pruned there found cut
    obtain ⟨parentNode, parentLive, -, childLinks, -⟩ := aboveShaped.top
    obtain ⟨front, back, siblings, rfl⟩ := Rose.children_split found
    have listed : parentNode.children =
        front.map Rose.label ++ target.label :: back.map Rose.label := by
      rw [childLinks, siblings, List.map_append, List.map_cons]
    refine ⟨after, front.map Rose.label, back.map Rose.label, ?_, ?_⟩
    · rw [detached, List.length_map]
    · constructor
      · refine ⟨parentNode, parentLive, listed, ?_⟩
        rw [cut.parentNode, parentLive, Option.map_some, listed]
        simp [List.eraseIdx_append_of_length_le]
      · intro lower reached
        exact cut.removed lower (targetShaped.mem_labels_iff.mpr reached)
      · intro other apart outside
        exact cut.others other (mt targetShaped.mem_labels_iff.mp outside) apart
      · exact ⟨target.labels, Rose.distinct_of_at? distinct here,
          fun lower => targetShaped.mem_labels_iff, shrunk⟩
      · exact cut.root

/-- In every forest that comes to be, detaching a node with a parent takes away its subtree and
nothing else, and tells the parent and the place among its children. Where there is no node, or one
without a parent, the call is refused and the forest stays as it is. -/
theorem one_subtree_leaves (forest : Forest) (occurs : forest.Occurs) (handle : Handle) :
    (∀ node parent, forest.node? handle = some node → node.parent = some parent →
      ∃ after front back, forest.detach handle = .ok (after, parent, front.length) ∧
        Departs forest after handle parent front back) ∧
    (∀ node, forest.node? handle = some node → node.parent = none →
      forest.detach handle = .error (.rootDetach node.name) ∧
        forest.perform (.detach handle) = forest) ∧
    (forest.node? handle = none →
      forest.detach handle = .error .staleNode ∧ forest.perform (.detach handle) = forest) := by
  obtain ⟨shapes, formed⟩ := occurs.formed
  refine ⟨fun node parent => formed.departs, fun node live top => ?_, fun gone => ?_⟩
  · have refused : forest.detach handle = .error (.rootDetach node.name) := by
      rw [detach, live]
      simp only [top]
    exact ⟨refused, by rw [perform, refused]⟩
  · have refused : forest.detach handle = .error .staleNode := by
      rw [detach, gone]
    exact ⟨refused, by rw [perform, refused]⟩

/-- The branch between two others leaves with the function in it. Its brothers stay, and so does the
second tree of the forest, whose root does not leave. -/
theorem middle_branch_leaves :
    let calls : List Call := [.insert ⟨.module, "p", ⟨0, 1⟩, []⟩ none,
      .insert ⟨.package, "a", 0, []⟩ (some 0), .insert ⟨.package, "b", ⟨0, 1⟩, []⟩ (some 0),
      .insert ⟨.package, "c", 0, []⟩ (some 0), .insert (.function "f") (some 2),
      .insert ⟨.module, "q", 0, []⟩ none, .insert (.function "f") (some 5)]
    let forest := Forest.empty.replay calls
    let after := forest.perform (.detach 2)
    forest.Occurs ∧ forest.detach 2 = .ok (after, 0, 1) ∧
      after.node? 0 = some ⟨"p", .branch .module ⟨0, 1⟩, none, [1, 3]⟩ ∧
      after.node? 4 = none ∧ after.node? 6 = forest.node? 6 ∧ after.size = 5 ∧
      (∃ front back, front.length = 1 ∧ Departs forest after 2 0 front back) ∧
      forest.detach 5 = .error (.rootDetach "q") ∧ after.detach 4 = .error .staleNode := by
  intro calls forest after
  have occurs : forest.Occurs := .inl ⟨.empty, calls, .inl rfl, rfl⟩
  have later : after.Occurs := .inl ⟨.empty, calls ++ [.detach 2], .inl rfl, rfl⟩
  have detached : forest.detach 2 = .ok (after, 0, 1) := rfl
  obtain ⟨removes, -, -⟩ := one_subtree_leaves forest occurs 2
  obtain ⟨-, keeps, -⟩ := one_subtree_leaves forest occurs 5
  obtain ⟨-, -, refuses⟩ := one_subtree_leaves after later 4
  obtain ⟨_, front, back, done, departs⟩ := removes _ 0 rfl rfl
  rw [detached, Except.ok.injEq, Prod.mk.injEq, Prod.mk.injEq] at done
  obtain ⟨rfl, -, place⟩ := done
  exact ⟨occurs, detached, rfl, rfl, rfl, rfl, ⟨front, back, place.symm, departs⟩,
    (keeps _ rfl rfl).1, (refuses rfl).1⟩

end CodeCensus.Forest
