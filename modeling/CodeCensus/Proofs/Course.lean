import CodeCensus.Proofs.Evolution

/-!
# The course of a mutation

A mutation that ends without a fault finds nothing, or refuses, or goes through its stages: it grows
a new subtree, raises the ancestors, cuts the old subtree off. `Course` says once which stages a
mutation went through and where; what is known of a stage is then known of every mutation that goes
through it.
-/

namespace CodeCensus.Tree

variable {tree : Tree} {shape target : Rose Handle} {outline : Outline} {position : Position}
  {mutation : Mutation} {outcome : Outcome} {scope name : String}

/-- The name that the root has now. -/
def rootName? (tree : Tree) : Option String :=
  (tree.node? tree.root).map Node.name

/-- Whether a mutation finds nothing under the names it looks up. -/
def misses (tree : Tree) : Mutation → Bool
  | .create scope _ => (tree.find? scope).isNone
  | .update scope entry => (tree.findWithin? scope entry.name).isNone
  | .rename scope previous _ => (tree.findWithin? scope previous).isNone
  | .delete scope name => (tree.findWithin? scope name).isNone

/-- Why a tree refuses a mutation, told from names and kinds alone. -/
def refusal? (tree : Tree) : Mutation → Option TreeError
  | .create scope _ =>
    if ((tree.find? scope).bind tree.node?).any Node.isLeaf then some (.notABranch scope) else none
  | .update scope entry =>
    if tree.rootName? = some scope ∧ tree.rootName? = some entry.name then
      some (.rootDetach scope)
    else none
  | .rename _ _ _ => none
  | .delete scope name =>
    if tree.rootName? = some scope ∧ tree.rootName? = some name then some (.rootDetach scope)
    else none

/-- The stages that a mutation of a tree went through, at positions of the shape of the tree. -/
inductive Course (tree : Tree) (shape : Rose Handle) : Mutation → Outcome → Prop
  | missed {mutation : Mutation} (absent : tree.misses mutation = true) :
      Course tree shape mutation ⟨tree, .ok ()⟩
  | refused {mutation : Mutation} {cause : TreeError}
      (refusal : tree.refusal? mutation = some cause) :
      Course tree shape mutation ⟨tree, .error cause⟩
  | renamed {scope previous name : String} {position : Position} {target : Rose Handle}
      {node : Node} (found : tree.findWithin? scope previous = some target.label)
      (here : shape.at? position = some target)
      (live : tree.forest.node? target.label = some node) :
      Course tree shape (.rename scope previous name)
        ⟨{ tree with forest := tree.forest.set target.label { node with name } }.notify
          (.changed target.label), .ok ()⟩
  | created {scope : String} {entry : Entry} {position : Position} {parent new : Rose Handle}
      {node : Node} {grown raised : Tree} (found : tree.find? scope = some parent.label)
      (here : shape.at? position = some parent)
      (live : tree.forest.node? parent.label = some node) (branch : node.isLeaf = false)
      (materializes : tree.materialize parent.label entry = (grown, .ok new.label))
      (grows : Grown tree grown parent.label [new] [Outline.ofEntry entry])
      (raises : grown.raise parent.label entry.counts = .ok raised) :
      Course tree shape (.create scope entry) ⟨raised, .ok ()⟩
  | deleted {scope name : String} {upper : Position} {index : Nat} {parent target : Rose Handle}
      {above node : Node} {lowered pruned : Tree}
      (found : tree.findWithin? scope name = some target.label)
      (here : shape.at? upper = some parent) (below : parent.children[index]? = some target)
      (aboveLive : tree.forest.node? parent.label = some above) (branch : above.isLeaf = false)
      (live : tree.forest.node? target.label = some node)
      (link : node.parent = some parent.label)
      (increases : Count.minus 0 node.counts = .ok (-node.counts))
      (raises : tree.raise parent.label (-node.counts) = .ok lowered)
      (removes : lowered.uproot target.label = ⟨pruned, .ok ()⟩) :
      Course tree shape (.delete scope name) ⟨pruned, .ok ()⟩
  | updated {scope : String} {entry : Entry} {upper : Position} {index : Nat}
      {parent target new : Rose Handle} {above node : Node} {grown raised pruned : Tree}
      (found : tree.findWithin? scope entry.name = some target.label)
      (here : shape.at? upper = some parent) (below : parent.children[index]? = some target)
      (aboveLive : tree.forest.node? parent.label = some above) (branch : above.isLeaf = false)
      (live : tree.forest.node? target.label = some node)
      (link : node.parent = some parent.label)
      (decreases : node.counts.minus entry.counts = .ok (node.counts - entry.counts))
      (increases : Count.minus 0 (node.counts - entry.counts) = .ok (entry.counts - node.counts))
      (materializes : tree.materialize parent.label entry = (grown, .ok new.label))
      (grows : Grown tree grown parent.label [new] [Outline.ofEntry entry])
      (raises : grown.raise parent.label (entry.counts - node.counts) = .ok raised)
      (removes : raised.uproot target.label = ⟨pruned, .ok ()⟩) :
      Course tree shape (.update scope entry) ⟨pruned, .ok ()⟩

/-! ### Targets at the top -/

/-- The root of a tree is live and has no parent. -/
theorem Shows.root_live (shows : tree.Shows shape outline) :
    ∃ top, tree.forest.node? tree.root = some top ∧ top.parent = none := by
  obtain ⟨top, live, noParent, -⟩ := shows.shaped.top
  rw [shows.top] at live
  exact ⟨top, live, noParent⟩

/-- The first node with the name of the root is the root. -/
theorem Shows.find?_rootName (shows : tree.Shows shape outline)
    (named : tree.rootName? = some name) : tree.find? name = some tree.root := by
  obtain ⟨top, live, -⟩ := shows.root_live
  obtain rfl : top.name = name := by simpa [rootName?, node?, live] using named
  rw [← shows.top] at live
  rw [find?, ← shows.top]
  exact shows.shaped.locate_own shows.distinct live

/-- A search inside the root for its own name finds the root. -/
theorem Shows.findWithin?_rootName (shows : tree.Shows shape outline)
    (scopeNamed : tree.rootName? = some scope) (named : tree.rootName? = some name) :
    tree.findWithin? scope name = some tree.root := by
  have found := shows.find?_rootName named
  rw [findWithin?, shows.find?_rootName scopeNamed]
  exact found

/-- What is found under a name has that name. -/
theorem name_of_locate {forest : Forest} {start found : Handle}
    (located : forest.locate start name = some found) :
    ∃ node, forest.node? found = some node ∧ node.name = name := by
  have passes := List.find?_some located
  obtain ⟨node, live, same⟩ := (Option.any_eq_true _ _).mp passes
  exact ⟨node, live, by simpa using same⟩

/-- Only the names of the root lead to the root. -/
theorem Shows.rootName_of_findWithin? (shows : tree.Shows shape outline)
    (found : tree.findWithin? scope name = some tree.root) :
    tree.rootName? = some scope ∧ tree.rootName? = some name := by
  obtain ⟨within, scopeFound, located⟩ := Option.bind_eq_some_iff.mp found
  have named : ∀ {text : String}, (∃ node, tree.forest.node? tree.root = some node ∧
      node.name = text) → tree.rootName? = some text := by
    rintro text ⟨node, live, same⟩
    simp [rootName?, node?, live, same]
  -- Below a proper descendant there is no root, so the scope is the root as well.
  rcases shows.find_cases scope with ⟨absent, -⟩ | ⟨upper, scopeShape, here, scopeIs, -⟩
  · rw [absent] at scopeFound
    cases scopeFound
  · obtain rfl : scopeShape.label = within := Option.some.inj (scopeIs.symm.trans scopeFound)
    rcases shows.locate_cases here name with ⟨absent, -⟩ | ⟨lower, target, below, at_, -⟩
    · rw [absent] at located
      cases located
    · have isRoot : target.label = tree.root := Option.some.inj (at_.symm.trans located)
      have there : shape.at? (upper ++ lower) = some target := by
        rw [Rose.at?_append, here, Option.bind_some, below]
      obtain ⟨top, live, noParent⟩ := shows.root_live
      rcases shows.target_cases there (isRoot ▸ live) with
        ⟨nowhere, -⟩ | ⟨_, _, _, _, -, -, -, hasParent, -⟩
      · obtain ⟨rfl, -⟩ := List.append_eq_nil_iff.mp nowhere
        obtain rfl : shape = scopeShape := Option.some.inj here
        rw [shows.top] at scopeIs
        exact ⟨named (name_of_locate scopeIs), named (name_of_locate located)⟩
      · rw [noParent] at hasParent
        cases hasParent

/-- Where the target of a mutation stands: at the root, under names of the root, or under a parent
that is a branch. -/
theorem Shows.target_course (shows : tree.Shows shape outline) (scope name : String) :
    tree.findWithin? scope name = none ∨
    (tree.findWithin? scope name = some tree.root ∧ tree.rootName? = some scope ∧
      tree.rootName? = some name) ∨
    ∃ (upper : Position) (index : Nat) (parent target : Rose Handle) (above node : Node),
      tree.findWithin? scope name = some target.label ∧
      shape.at? upper = some parent ∧ parent.children[index]? = some target ∧
      tree.forest.node? parent.label = some above ∧ above.isLeaf = false ∧
      tree.forest.node? target.label = some node ∧ node.parent = some parent.label := by
  rcases shows.findWithin_cases scope name with
    ⟨absent, -⟩ | ⟨position, target, here, found, -⟩
  · exact .inl absent
  · obtain ⟨_, targetShaped⟩ := shows.shaped.at? here
    obtain ⟨node, live, -⟩ := targetShaped.top
    rcases shows.target_cases here live with
      ⟨rfl, -⟩ | ⟨upper, index, parent, above, rfl, there, below, link, aboveLive, branch⟩
    · obtain rfl : shape = target := Option.some.inj here
      rw [shows.top] at found
      exact .inr (.inl ⟨found, shows.rootName_of_findWithin? found⟩)
    · exact .inr (.inr ⟨upper, index, parent, target, above, node, found, there, below, aboveLive,
        branch, live, link⟩)

/-! ### Every mutation takes its course -/

/-- After a subtree grew below a branch, the branch is still there and has one child more. -/
theorem Shows.grown_branch {parent new : Rose Handle} {node : Node} {grown : Tree}
    {outlines : List Outline} (shows : tree.Shows shape outline)
    (here : shape.at? position = some parent)
    (live : tree.forest.node? parent.label = some node) (branch : node.isLeaf = false)
    (grows : Grown tree grown parent.label [new] outlines) :
    grown.Shows (shape.graft [new] position) (outline.graft outlines position) ∧
      (shape.graft [new] position).at? position =
        some ⟨parent.label, parent.children ++ [new]⟩ ∧
      ∃ later, grown.forest.node? parent.label = some later ∧ later.isLeaf = false := by
  refine ⟨shows.grown here live branch grows, Rose.at?_graft [new] here, ?_⟩
  have later := grows.grafted.parentNode
  rw [live, Option.map_some] at later
  exact ⟨_, later, branch⟩

/-- When a branch is raised, everything above it is, and the outline with it. -/
theorem Shows.raised_branch {parent : Rose Handle} {above : Node} {delta : Count} {raised : Tree}
    (shows : tree.Shows shape outline) (here : shape.at? position = some parent)
    (live : tree.forest.node? parent.label = some above) (branch : above.isLeaf = false)
    (raises : tree.raise parent.label delta = .ok raised) :
    Raised tree raised delta (shape.spine position) ∧
      raised.Shows shape (outline.exchange delta id position) := by
  have way := (raise_spine delta shows.shaped shows.distinct here live branch).1 raised raises
  exact ⟨way, shows.raised here way⟩

/-- When a child of a branch that was raised leaves, it is cut off with everything below it. -/
theorem Shows.pruned_branch {parent : Rose Handle} {index : Nat} {pruned : Tree}
    (shows : tree.Shows shape outline) (here : shape.at? position = some parent)
    (below : parent.children[index]? = some target)
    (removes : tree.uproot target.label = ⟨pruned, .ok ()⟩) :
    Forest.Pruned tree.forest pruned.forest parent.label index target ∧
      pruned.Shows (shape.prune index position) (outline.prune index position) := by
  obtain ⟨_, removed, cut, -, prunedShows⟩ := shows.uprooted here below
  obtain rfl : pruned = _ := congrArg Outcome.tree (removes.symm.trans removed)
  exact ⟨cut, prunedShows⟩

/-- A child of a branch is its child still after a subtree grew behind it. -/
theorem getElem?_grown {children : List (Rose Handle)} {index : Nat} (grown : List (Rose Handle))
    (below : children[index]? = some target) : (children ++ grown)[index]? = some target := by
  rw [List.getElem?_append_left (List.getElem?_eq_some_iff.mp below).1, below]

/-- What a creation does, whatever it finds. -/
theorem Shows.create_course {entry : Entry} (shows : tree.Shows shape outline)
    (done : tree.create scope entry = .ok outcome) :
    tree.Course shape (.create scope entry) outcome := by
  rcases shows.find_cases scope with ⟨absent, -⟩ | ⟨position, parent, here, found, -⟩
  · simp only [Tree.create, absent, Except.ok.injEq] at done
    subst done
    exact .missed (by simp [misses, absent])
  · obtain ⟨_, parentShaped⟩ := shows.shaped.at? here
    obtain ⟨node, live, -⟩ := parentShaped.top
    cases leaf : node.isLeaf with
    | true =>
      obtain ⟨other, otherLive, sameName⟩ := name_of_locate found
      obtain rfl : other = node := Option.some.inj (otherLive.symm.trans live)
      simp only [Tree.create, found, materialize_leaf live leaf, Except.ok.injEq] at done
      subst done
      have refusal : tree.refusal? (.create scope entry) = some (.notABranch other.name) := by
        simp [refusal?, found, node?, live, leaf, sameName]
      exact .refused refusal
    | false =>
      obtain ⟨grown, new, materializes, grows⟩ := materialize_grown entry tree live leaf
      simp only [Tree.create, found, materializes] at done
      obtain ⟨raised, raises, same⟩ := Fault.bind_eq_ok.mp done
      obtain rfl := Except.ok.inj same
      exact .created found here live leaf materializes grows raises

/-- What a deletion does, whatever it finds. -/
theorem Shows.delete_course (shows : tree.Shows shape outline)
    (done : tree.delete scope name = .ok outcome) :
    tree.Course shape (.delete scope name) outcome := by
  rcases shows.target_course scope name with
    absent | ⟨found, scopeNamed, named⟩ |
    ⟨upper, index, parent, target, above, node, found, here, below, aboveLive, branch, live, link⟩
  · simp only [Tree.delete, absent, Except.ok.injEq] at done
    subst done
    exact .missed (by simp [misses, absent])
  · obtain ⟨top, live, noParent⟩ := shows.root_live
    have sameName : top.name = scope := by simpa [rootName?, node?, live] using scopeNamed
    simp only [Tree.delete, found, node?, live, noParent, Except.ok.injEq] at done
    subst done
    exact .refused (by rw [refusal?, if_pos ⟨scopeNamed, named⟩, sameName])
  · simp only [Tree.delete, found, node?, live, link] at done
    obtain ⟨decrease, negated, rest⟩ := Fault.bind_eq_ok.mp done
    obtain ⟨lowered, raises, same⟩ := Fault.bind_eq_ok.mp rest
    obtain ⟨-, sameDecrease⟩ := Count.checked_eq_ok.mp negated
    rw [zero_sub] at sameDecrease
    rw [sameDecrease] at negated raises
    obtain ⟨-, loweredShows⟩ := shows.raised_branch here aboveLive branch raises
    obtain ⟨pruned, removes, -⟩ := loweredShows.uprooted here below
    obtain rfl : lowered.uproot target.label = outcome := Except.ok.inj same
    rw [removes]
    exact .deleted found here below aboveLive branch live link negated raises removes

private theorem Shows.update_course {entry : Entry} (shows : tree.Shows shape outline)
    (done : tree.update scope entry = .ok outcome) :
    tree.Course shape (.update scope entry) outcome := by
  rcases shows.target_course scope entry.name with
    absent | ⟨found, scopeNamed, named⟩ |
    ⟨upper, index, parent, target, above, node, found, here, below, aboveLive, branch, live, link⟩
  · simp only [Tree.update, absent, Except.ok.injEq] at done
    subst done
    exact .missed (by simp [misses, absent])
  · obtain ⟨top, live, noParent⟩ := shows.root_live
    have sameName : top.name = scope := by simpa [rootName?, node?, live] using scopeNamed
    simp only [Tree.update, found, node?, live, noParent, Except.ok.injEq] at done
    subst done
    exact .refused (by rw [refusal?, if_pos ⟨scopeNamed, named⟩, sameName])
  · obtain ⟨grown, new, materializes, grows⟩ := materialize_grown entry tree aboveLive branch
    simp only [Tree.update, found, node?, live, link, materializes] at done
    obtain ⟨decrease, compared, rest⟩ := Fault.bind_eq_ok.mp done
    obtain ⟨increase, negated, onward⟩ := Fault.bind_eq_ok.mp rest
    obtain ⟨raised, raises, same⟩ := Fault.bind_eq_ok.mp onward
    obtain ⟨-, sameDecrease⟩ := Count.checked_eq_ok.mp compared
    obtain ⟨-, sameIncrease⟩ := Count.checked_eq_ok.mp negated
    rw [sameDecrease, zero_sub, neg_sub] at sameIncrease
    rw [sameDecrease] at compared negated
    rw [sameIncrease] at raises negated
    obtain ⟨grownShows, stillHere, later, laterLive, stillBranch⟩ :=
      shows.grown_branch here aboveLive branch grows
    obtain ⟨-, raisedShows⟩ := grownShows.raised_branch stillHere laterLive stillBranch raises
    obtain ⟨pruned, removes, -⟩ := raisedShows.uprooted stillHere (getElem?_grown [new] below)
    obtain rfl : raised.uproot target.label = outcome := Except.ok.inj same
    rw [removes]
    exact .updated found here below aboveLive branch live link compared negated materializes grows raises
      removes

/-- A mutation that ends has taken its course. -/
theorem Shows.course (shows : tree.Shows shape outline) (done : tree.mutate mutation = .ok outcome) :
    tree.Course shape mutation outcome := by
  cases mutation with
  | create scope entry => exact shows.create_course done
  | update scope entry => exact shows.update_course done
  | delete scope name => exact shows.delete_course done
  | rename scope previous name =>
    obtain rfl : tree.rename scope previous name = outcome := Except.ok.inj done
    rcases shows.findWithin_cases scope previous with ⟨absent, -⟩ | ⟨position, target, here, found, -⟩
    · simp only [Tree.rename, absent]
      exact .missed (by simp [misses, absent])
    · obtain ⟨_, targetShaped⟩ := shows.shaped.at? here
      obtain ⟨node, live, -⟩ := targetShaped.top
      simp only [Tree.rename, found, node?, live]
      exact .renamed found here live

end CodeCensus.Tree
