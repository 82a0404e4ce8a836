import CodeCensus.Proofs.Fault
import CodeCensus.Proofs.Mutation

/-!
# The tree refines its outline

A tree `Shows` an outline through a shape that accounts for its whole forest. Each mutation of the
tree is the mutation of the outline: the insertion is a graft, the upward walk raises the way to
the position, the removal is a cut, and the three compose at one position.
-/

namespace CodeCensus

open Forest (Continues Grafted Pruned Relabelled)

variable {tree after : Tree} {shape subshape : Rose Handle} {outline : Outline}
  {position : Position}

namespace Tree

/-- The forest of a tree is one shape below the root, and an outline shows its facts. -/
structure Shows (tree : Tree) (shape : Rose Handle) (outline : Outline) : Prop where
  formed : tree.forest.Formed [shape]
  top : shape.label = tree.root
  rooted : tree.forest.root = some tree.root
  facts : shape.map tree.forest.facts = outline
  module : outline.label.kind = .module

/-- The links of a tree have its shape. -/
theorem Shows.shaped (shows : tree.Shows shape outline) : tree.forest.Shaped none shape :=
  shows.formed.shaped shape (by simp)

/-- No handle stands in a tree twice. -/
theorem Shows.distinct (shows : tree.Shows shape outline) : shape.labels.Nodup :=
  shows.formed.distinct_of_mem (by simp)

/-- The outline of a tree is the one that it shows. -/
theorem Shows.outline? (shows : tree.Shows shape outline) : tree.outline? = some outline := by
  rw [Tree.outline?, ← shows.top, shows.shaped.outline? shows.distinct, shows.facts]

/-- Units of the outline are nodes of the tree. -/
theorem Shows.at? (shows : tree.Shows shape outline) (here : shape.at? position = some subshape) :
    outline.at? position = some (subshape.map tree.forest.facts) := by
  rw [← shows.facts, Rose.at?_map, here]
  rfl

/-- Searching below a node is searching the outline below it. -/
theorem Shows.locate_cases (shows : tree.Shows shape outline)
    (here : shape.at? position = some subshape) (name : String) :
    (tree.forest.locate subshape.label name = none ∧
      Outline.find? (subshape.map tree.forest.facts) name = none) ∨
    ∃ lower target, subshape.at? lower = some target ∧
      tree.forest.locate subshape.label name = some target.label ∧
      Outline.find? (subshape.map tree.forest.facts) name =
        some (lower, target.map tree.forest.facts) := by
  obtain ⟨_, subshaped⟩ := shows.shaped.at? here
  rw [subshaped.locate (Rose.distinct_of_at? shows.distinct here), Outline.find?, Rose.locate?_map]
  cases found : subshape.locate? fun handle => (tree.forest.facts handle).name == name with
  | none => exact .inl ⟨rfl, rfl⟩
  | some node => exact .inr ⟨node.1, node.2, Rose.at?_of_locate? found, rfl, rfl⟩

/-- The tree and its outline find the same by name. -/
theorem Shows.find_cases (shows : tree.Shows shape outline) (name : String) :
    (tree.find? name = none ∧ outline.find? name = none) ∨
    ∃ position target, shape.at? position = some target ∧ tree.find? name = some target.label ∧
      outline.find? name = some (position, target.map tree.forest.facts) := by
  have searched := shows.locate_cases (Rose.at?_nil shape) name
  rwa [shows.top, shows.facts] at searched

/-- The tree and its outline find the same by name inside a scope. -/
theorem Shows.findWithin_cases (shows : tree.Shows shape outline) (scope name : String) :
    (tree.findWithin? scope name = none ∧ outline.findWithin? scope name = none) ∨
    ∃ position target, shape.at? position = some target ∧
      tree.findWithin? scope name = some target.label ∧
      outline.findWithin? scope name = some (position, target.map tree.forest.facts) := by
  rcases shows.find_cases scope with ⟨absent, none_there⟩ | ⟨upper, within, here, found, there⟩
  · exact .inl ⟨by simp [findWithin?, absent], by simp [Outline.findWithin?, none_there]⟩
  · rcases shows.locate_cases here name with ⟨absent, none_there⟩ | ⟨lower, target, below, at_, sees⟩
    · exact .inl ⟨by simp [findWithin?, found, absent], by
        simp [Outline.findWithin?, there, none_there]⟩
    · refine .inr ⟨upper ++ lower, target, ?_, ?_, ?_⟩
      · rw [Rose.at?_append, here, Option.bind_some, below]
      · simp [findWithin?, found, at_]
      · simp [Outline.findWithin?, there, sees]

/-- Growing below a branch grafts the outlines. -/
theorem Shows.grown {node : Node} {shapes : List (Rose Handle)} {outlines : List Outline}
    (shows : tree.Shows shape outline) (here : shape.at? position = some subshape)
    (live : tree.forest.node? subshape.label = some node) (branch : node.isLeaf = false)
    (grown : Grown tree after subshape.label shapes outlines) :
    after.Shows (shape.graft shapes position) (outline.graft outlines position) := by
  have formed : tree.forest.Formed ([] ++ shape :: []) := shows.formed
  have sameFacts : shape.map after.forest.facts = outline := by
    rw [← shows.facts]
    refine Rose.map_congr fun handle inShape => ?_
    obtain ⟨node, live⟩ := shows.shaped.live inShape
    exact grown.grafted.facts live
  have there := shows.at? here
  refine ⟨formed.grafted here live branch grown.grafted, ?_, ?_, ?_, ?_⟩
  · rw [Rose.label_graft shapes here, shows.top, grown.root]
  · rw [grown.grafted.root, shows.rooted, grown.root]
  · rw [← sameFacts]
    refine Rose.map_amend here (fun _ => rfl) ?_
    simp [grown.shown]
  · rw [Rose.label_graft outlines there, shows.module]

/-- Raising the way to a position raises the outline there. -/
theorem Shows.raised {delta : Count} (shows : tree.Shows shape outline)
    (here : shape.at? position = some subshape)
    (raised : Raised tree after delta (shape.spine position)) :
    after.Shows shape (outline.exchange delta id position) := by
  refine ⟨shows.formed.relabelled raised.relabelled, shows.top.trans raised.root.symm, ?_, ?_, ?_⟩
  · rw [raised.relabelled.root, shows.rooted, raised.root]
  · have spread := Rose.map_spine tree.forest.facts (Facts.raise delta) shows.distinct here
    rw [shows.facts] at spread
    rw [Outline.exchange]
    exact (Rose.map_congr fun handle _ => raised.facts handle).trans spread
  · rw [Outline.label_exchange, Facts.raise_kind, shows.module]

/-- Removing a child cuts it out of the outline. -/
theorem Shows.uprooted {index : Nat} {child : Rose Handle} (shows : tree.Shows shape outline)
    (here : shape.at? position = some subshape) (found : subshape.children[index]? = some child) :
    ∃ pruned, tree.uproot child.label = ⟨pruned, .ok ()⟩ ∧
      Pruned tree.forest pruned.forest subshape.label index child ∧ pruned.root = tree.root ∧
      pruned.Shows (shape.prune index position) (outline.prune index position) := by
  obtain ⟨forest, detached, cut⟩ := Forest.detach_pruned shows.shaped shows.distinct here found
  refine ⟨{ tree with forest }.notify (.removed subshape.label index child.label), ?_, cut, rfl, ?_⟩
  · rw [uproot, detached]
  · have labels := Rose.labels_prune here found
    have apart := (List.nodup_append.mp (labels.nodup_iff.mp shows.distinct)).2.2
    have sameFacts : ∀ handle ∈ (shape.prune index position).labels,
        forest.facts handle = tree.forest.facts handle := by
      intro handle member
      have notCut : handle ∉ child.labels := fun inCut => apart handle member handle inCut rfl
      by_cases isParent : handle = subshape.label
      · subst isParent
        obtain ⟨_, subshaped⟩ := shows.shaped.at? here
        obtain ⟨node, live, -⟩ := subshaped.top
        have top := cut.parentNode
        rw [live, Option.map_some] at top
        rw [Forest.facts_of_node? live, Forest.facts_of_node? top]
        rfl
      · exact Forest.facts_congr (cut.others handle notCut isParent)
    have formed : tree.forest.Formed ([] ++ shape :: []) := shows.formed
    refine ⟨formed.pruned here found cut, ?_, ?_, ?_, ?_⟩
    · rw [Rose.label_prune index here]
      exact shows.top
    · exact cut.root.trans shows.rooted
    · refine (Rose.map_congr sameFacts).trans ?_
      rw [← shows.facts]
      refine Rose.map_amend here (fun _ => rfl) ?_
      simp [List.eraseIdx_map]
    · rw [Rose.label_prune index (shows.at? here), shows.module]

/-- Renaming one node renames one unit of the outline. -/
theorem Shows.renamed {node : Node} (shows : tree.Shows shape outline)
    (here : shape.at? position = some subshape)
    (live : tree.forest.node? subshape.label = some node) (name : String) (observers : Observers) :
    Tree.Shows ⟨tree.forest.set subshape.label { node with name }, tree.root, observers⟩ shape
      (outline.amend id (fun unit => ⟨{ unit.label with name }, unit.children⟩) position) := by
  have relabelled : Relabelled tree.forest (tree.forest.set subshape.label { node with name }) :=
    Forest.relabelled_set live rfl
  have facts : ∀ handle, (tree.forest.set subshape.label { node with name }).facts handle =
      if handle = subshape.label then { tree.forest.facts handle with name }
      else tree.forest.facts handle := by
    intro handle
    have lookup : (tree.forest.set subshape.label { node with name }).node? handle =
        if handle = subshape.label then some { node with name } else tree.forest.node? handle :=
      Forest.node?_set _ (Forest.lt_fresh_of_node? live)
    by_cases same : handle = subshape.label
    · subst same
      rw [if_pos rfl] at lookup
      rw [if_pos rfl, Forest.facts_of_node? live, Forest.facts_of_node? lookup]
      rfl
    · rw [if_neg same] at lookup
      rw [if_neg same, Forest.facts_congr lookup]
  refine ⟨shows.formed.relabelled relabelled, shows.top, relabelled.root.trans shows.rooted, ?_, ?_⟩
  · have spread := Rose.map_single tree.forest.facts (fun unit => { unit with name })
      shows.distinct here
    rw [shows.facts] at spread
    exact (Rose.map_congr fun handle _ => facts handle).trans spread
  · exact (Outline.label_renamed outline position name).1.trans shows.module

/-! ### One mutation -/

/-- Appending an entry below a branch grafts its outline. -/
theorem Shows.appended {node : Node} (shows : tree.Shows shape outline)
    (here : shape.at? position = some subshape)
    (live : tree.forest.node? subshape.label = some node) (branch : node.isLeaf = false)
    (entry : Entry) :
    ∃ grown new, tree.materialize subshape.label entry = (grown, .ok new.label) ∧
      Continues tree.forest grown.forest ∧ grown.root = tree.root ∧
      grown.Shows (shape.graft [new] position) (outline.graft [Outline.ofEntry entry] position) := by
  obtain ⟨grown, new, done, added⟩ := materialize_grown entry tree live branch
  exact ⟨grown, new, done, added.grafted.continues, added.root, shows.grown here live branch added⟩

/-- Raising a branch raises the outline from its position up, unless a counter leaves its word. -/
theorem Shows.raise {node : Node} (shows : tree.Shows shape outline)
    (here : shape.at? position = some subshape)
    (live : tree.forest.node? subshape.label = some node) (branch : node.isLeaf = false)
    (delta : Count) :
    (∀ raised, tree.raise subshape.label delta = .ok raised →
      Relabelled tree.forest raised.forest ∧ raised.root = tree.root ∧
        raised.Shows shape (outline.exchange delta id position) ∧
        (outline.label.counts.inRange → (outline.label.counts + delta).inRange)) ∧
    ((∀ facts ∈ outline.spine position, (facts.counts + delta).inRange) →
      ∃ raised, tree.raise subshape.label delta = .ok raised) := by
  obtain ⟨onward, total⟩ := raise_spine delta shows.shaped shows.distinct here live branch
  refine ⟨fun raised done => ?_, fun fits => total fun handle member => fits _ ?_⟩
  · have spread := onward raised done
    have raisedShows := shows.raised here spread
    refine ⟨spread.relabelled, spread.root, raisedShows, ?_⟩
    have words := spread.words shape.label
    rw [← Rose.label_map tree.forest.facts, shows.facts, ← Rose.label_map raised.forest.facts,
      raisedShows.facts, Outline.label_exchange] at words
    exact words
  · rw [← shows.facts, Rose.spine_map]
    exact List.mem_map_of_mem member

/-- Appending an entry below a branch and raising it by any difference is one exchange. -/
theorem Shows.exchanged {node : Node} (shows : tree.Shows shape outline)
    (here : shape.at? position = some subshape)
    (live : tree.forest.node? subshape.label = some node) (branch : node.isLeaf = false)
    (entry : Entry) (delta : Count) :
    ∃ grown new, tree.materialize subshape.label entry = (grown, .ok new.label) ∧
      (∀ raised, grown.raise subshape.label delta = .ok raised →
        Continues tree.forest raised.forest ∧ raised.root = tree.root ∧
          raised.Shows (shape.graft [new] position)
            (outline.exchange delta (· ++ [Outline.ofEntry entry]) position) ∧
          (outline.label.counts.inRange → (outline.label.counts + delta).inRange)) ∧
      ((∀ facts ∈ outline.spine position, (facts.counts + delta).inRange) →
        ∃ raised, grown.raise subshape.label delta = .ok raised) := by
  obtain ⟨grown, new, done, continues, root, grownShows⟩ := shows.appended here live branch entry
  have stillHere := Rose.at?_graft [new] here
  obtain ⟨later, laterLive⟩ := grownShows.shaped.live (Rose.label_mem_of_at? stillHere)
  have stillBranch : later.isLeaf = false := by
    rwa [Node.isLeaf, (continues.steady _ _ _ live laterLive).1]
  obtain ⟨onward, total⟩ := grownShows.raise stillHere laterLive stillBranch delta
  refine ⟨grown, new, done, fun raised wasRaised => ?_, fun fits => total ?_⟩
  · obtain ⟨relabelled, sameRoot, raisedShows, words⟩ := onward raised wasRaised
    rw [Outline.exchange_graft] at raisedShows
    rw [Rose.label_graft _ (shows.at? here)] at words
    exact ⟨continues.trans relabelled.continues, sameRoot.trans root, raisedShows, words⟩
  · rwa [Rose.spine_graft _ (shows.at? here)]

/-- A leaf refuses to hold an entry. -/
theorem materialize_leaf {parent : Handle} {node : Node} (live : tree.forest.node? parent = some node)
    (leaf : node.isLeaf = true) (entry : Entry) :
    tree.materialize parent entry = (tree, .error (.notABranch node.name)) := by
  cases entry
  simp [materialize, Forest.insert, live, leaf]

/-- The outcome is the planned outline with the planned result. -/
structure Realizes (before : Tree) (outline : Outline) (planned : Except TreeError Outline)
    (outcome : Outcome) : Prop where
  result : outcome.result = planned.map fun _ => ()
  shows : ∃ shape, outcome.tree.Shows shape (planned.toOption.getD outline)
  continues : Continues before.forest outcome.tree.forest
  root : outcome.tree.root = before.root
  words : outline.label.counts.inRange → (planned.toOption.getD outline).label.counts.inRange

/-- Nothing to do is realized by doing nothing. -/
theorem Shows.idle (shows : tree.Shows shape outline) :
    tree.Realizes outline (.ok outline) ⟨tree, .ok ()⟩ :=
  ⟨rfl, ⟨shape, shows⟩, .refl, rfl, id⟩

/-- A refusal is realized by doing nothing. -/
theorem Shows.refused (shows : tree.Shows shape outline) (cause : TreeError) :
    tree.Realizes outline (.error cause) ⟨tree, .error cause⟩ :=
  ⟨rfl, ⟨shape, shows⟩, .refl, rfl, id⟩

/-- Removing a child after an exchange is the exchange without the child. -/
theorem Shows.realizes_uproot {raised : Tree} {index : Nat} {child : Rose Handle} {delta : Count}
    {change : List Outline → List Outline}
    (shows : raised.Shows shape (outline.exchange delta change position))
    (here : shape.at? position = some subshape) (found : subshape.children[index]? = some child)
    (continues : Continues tree.forest raised.forest) (root : raised.root = tree.root)
    (words : outline.label.counts.inRange → (outline.label.counts + delta).inRange) :
    tree.Realizes outline
      (.ok (outline.exchange delta (fun units => (change units).eraseIdx index) position))
      (raised.uproot child.label) := by
  obtain ⟨pruned, removed, cut, sameRoot, prunedShows⟩ := shows.uprooted here found
  obtain ⟨_, subshaped⟩ := shows.shaped.at? here
  have onward := cut.continues (subshaped.child (List.mem_of_getElem? found))
  rw [Outline.prune_exchange] at prunedShows
  rw [removed]
  exact ⟨rfl, ⟨_, prunedShows⟩, continues.trans onward, sameRoot.trans root,
    by simpa [Except.toOption] using words⟩

/-- Whatever outcome there is realizes the plan, and within the words there is one. -/
def Refines (tree : Tree) (outline : Outline) (mutation : Mutation) : Prop :=
  (∀ outcome, tree.mutate mutation = .ok outcome →
    tree.Realizes outline (outline.mutate mutation) outcome) ∧
  (outline.Fits mutation → ∃ outcome, tree.mutate mutation = .ok outcome)

/-- A mutation that cannot fault. -/
theorem refines_of_ok {mutation : Mutation} (outcome : Outcome)
    (mutated : tree.mutate mutation = .ok outcome)
    (realizes : tree.Realizes outline (outline.mutate mutation) outcome) :
    tree.Refines outline mutation := by
  refine ⟨fun other same => ?_, fun _ => ⟨outcome, mutated⟩⟩
  obtain rfl : outcome = other := Except.ok.inj (mutated.symm.trans same)
  exact realizes

/-- A mutation that can fault in its first stage only. -/
theorem refines_of_bind {α : Type} {mutation : Mutation} (stage : Except Fault α)
    (finish : α → Outcome) (mutated : tree.mutate mutation = stage.bind fun made => .ok (finish made))
    (realizes : ∀ made, stage = .ok made →
      tree.Realizes outline (outline.mutate mutation) (finish made))
    (total : outline.Fits mutation → ∃ made, stage = .ok made) : tree.Refines outline mutation := by
  rw [Refines, mutated]
  constructor
  · intro outcome ended
    obtain ⟨made, done, same⟩ := Fault.bind_eq_ok.mp ended
    obtain rfl : finish made = outcome := Except.ok.inj same
    exact realizes made done
  · intro fits
    obtain ⟨made, done⟩ := total fits
    exact ⟨finish made, Fault.bind_eq_ok.mpr ⟨made, done, rfl⟩⟩

/-- Creations refine those of outlines. -/
theorem Shows.create (shows : tree.Shows shape outline) (scope : String) (entry : Entry) :
    tree.Refines outline (.create scope entry) := by
  rcases shows.find_cases scope with ⟨absent, none_there⟩ | ⟨position, target, here, found, there⟩
  · refine refines_of_ok ⟨tree, .ok ()⟩ ?_ ?_
    · simp [mutate, Tree.create, absent]
    · simpa [Outline.mutate, Outline.create, none_there] using shows.idle
  · obtain ⟨_, subshaped⟩ := shows.shaped.at? here
    obtain ⟨node, live, -⟩ := subshaped.top
    have facts := Forest.facts_of_node? live
    cases leaf : node.isLeaf with
    | true =>
      refine refines_of_ok ⟨tree, .error (.notABranch node.name)⟩ ?_ ?_
      · simp [mutate, Tree.create, found, materialize_leaf live leaf]
      · have planned : outline.mutate (.create scope entry) = .error (.notABranch node.name) := by
          simp only [Node.isLeaf] at leaf
          simp [Outline.mutate, Outline.create, there, facts, Node.facts, leaf]
        rw [planned]
        exact shows.refused _
    | false =>
      obtain ⟨grown, new, done, onward, total⟩ :=
        shows.exchanged here live leaf entry entry.counts
      have planned : outline.mutate (.create scope entry) =
          .ok (outline.exchange entry.counts (· ++ [Outline.ofEntry entry]) position) := by
        simp only [Node.isLeaf] at leaf
        simp [Outline.mutate, Outline.create, there, facts, Node.facts, leaf]
      refine refines_of_bind (grown.raise target.label entry.counts)
        (fun raised => ⟨raised, .ok ()⟩) ?_ ?_ ?_
      · simp only [mutate, Tree.create, found, done]
        rfl
      · intro raised wasRaised
        obtain ⟨continues, root, raisedShows, words⟩ := onward raised wasRaised
        rw [planned]
        exact ⟨rfl, ⟨_, raisedShows⟩, continues, root, by simpa [Except.toOption] using words⟩
      · intro fits
        exact total (fits position entry.counts (by simp [Outline.ripple, there])).2.2

/-- What a target of a mutation is: the root, or a child of a branch at a position. -/
theorem Shows.target_cases {target : Rose Handle} {node : Node} (shows : tree.Shows shape outline)
    (here : shape.at? position = some target)
    (live : tree.forest.node? target.label = some node) :
    (position = [] ∧ node.parent = none) ∨
      ∃ upper index above parent, position = upper ++ [index] ∧ shape.at? upper = some above ∧
        above.children[index]? = some target ∧ node.parent = some above.label ∧
        tree.forest.node? above.label = some parent ∧ parent.isLeaf = false := by
  rcases shows.shaped.parent_at? here live with
    root | ⟨upper, index, above, rfl, there, below, link, -⟩
  · exact .inl root
  · obtain ⟨_, aboveShaped⟩ := shows.shaped.at? there
    obtain ⟨parent, parentLive, -, -, terminal⟩ := aboveShaped.top
    refine .inr ⟨upper, index, above, parent, rfl, there, below, link, parentLive, ?_⟩
    refine Bool.eq_false_iff.mpr fun leaf => ?_
    simp [terminal leaf] at below

/-- Deletions refine those of outlines. -/
theorem Shows.delete (shows : tree.Shows shape outline) (scope name : String) :
    tree.Refines outline (.delete scope name) := by
  rcases shows.findWithin_cases scope name with
    ⟨absent, none_there⟩ | ⟨position, target, here, found, there⟩
  · refine refines_of_ok ⟨tree, .ok ()⟩ ?_ ?_
    · simp [mutate, Tree.delete, absent]
    · simpa [Outline.mutate, Outline.delete, none_there] using shows.idle
  · obtain ⟨_, subshaped⟩ := shows.shaped.at? here
    obtain ⟨node, live, -⟩ := subshaped.top
    have facts := Forest.facts_of_node? live
    rcases shows.target_cases here live with
      ⟨rfl, top⟩ | ⟨upper, index, above, parent, rfl, aboveHere, below, link, parentLive, branch⟩
    · refine refines_of_ok ⟨tree, .error (.rootDetach node.name)⟩ ?_ ?_
      · simp [mutate, Tree.delete, found, node?, live, top]
      · have planned : outline.mutate (.delete scope name) = .error (.rootDetach node.name) := by
          simp [Outline.mutate, Outline.delete, there, facts, Node.facts]
        rw [planned]
        exact shows.refused _
    · have planned : outline.mutate (.delete scope name) =
          .ok (outline.exchange (-node.counts) (·.eraseIdx index) upper) := by
        simp [Outline.mutate, Outline.delete, there, facts, Node.facts]
      refine refines_of_bind
        ((Count.minus 0 node.counts).bind fun decrease => tree.raise above.label decrease)
        (fun lowered => lowered.uproot target.label) ?_ ?_ ?_
      · simp only [mutate, Tree.delete, found, node?, live, link]
        cases Count.minus 0 node.counts <;> rfl
      · intro lowered done
        obtain ⟨decrease, negated, wasRaised⟩ := Fault.bind_eq_ok.mp done
        obtain ⟨-, rfl⟩ := Count.checked_eq_ok.mp negated
        rw [zero_sub] at wasRaised
        obtain ⟨relabelled, root, raisedShows, words⟩ :=
          (shows.raise aboveHere parentLive branch (-node.counts)).1 lowered wasRaised
        rw [planned]
        exact raisedShows.realizes_uproot aboveHere below relabelled.continues root words
      · intro fits
        obtain ⟨inRange, -, wayFits⟩ := fits upper (-node.counts)
          (by simp [Outline.ripple, there, facts, Node.facts])
        obtain ⟨lowered, done⟩ :=
          (shows.raise aboveHere parentLive branch (-node.counts)).2 wayFits
        refine ⟨lowered, Fault.bind_eq_ok.mpr ⟨-node.counts, ?_, done⟩⟩
        rw [Count.minus, zero_sub, Count.checked_of_inRange inRange]

/-- Updates refine those of outlines. -/
theorem Shows.update (shows : tree.Shows shape outline) (scope : String) (entry : Entry) :
    tree.Refines outline (.update scope entry) := by
  rcases shows.findWithin_cases scope entry.name with
    ⟨absent, none_there⟩ | ⟨position, target, here, found, there⟩
  · refine refines_of_ok ⟨tree, .ok ()⟩ ?_ ?_
    · simp [mutate, Tree.update, absent]
    · simpa [Outline.mutate, Outline.update, none_there] using shows.idle
  · obtain ⟨_, subshaped⟩ := shows.shaped.at? here
    obtain ⟨old, live, -⟩ := subshaped.top
    have facts := Forest.facts_of_node? live
    rcases shows.target_cases here live with
      ⟨rfl, top⟩ | ⟨upper, index, above, parent, rfl, aboveHere, below, link, parentLive, branch⟩
    · refine refines_of_ok ⟨tree, .error (.rootDetach old.name)⟩ ?_ ?_
      · simp [mutate, Tree.update, found, node?, live, top]
      · have planned : outline.mutate (.update scope entry) = .error (.rootDetach old.name) := by
          simp [Outline.mutate, Outline.update, there, facts, Node.facts]
        rw [planned]
        exact shows.refused _
    · have planned : outline.mutate (.update scope entry) =
          .ok (outline.exchange (entry.counts - old.counts)
            (fun siblings => (siblings ++ [Outline.ofEntry entry]).eraseIdx index) upper) := by
        simp [Outline.mutate, Outline.update, there, facts, Node.facts]
      obtain ⟨grown, new, materialized, onward, total⟩ :=
        shows.exchanged aboveHere parentLive branch entry (entry.counts - old.counts)
      refine refines_of_bind
        ((old.counts.minus entry.counts).bind fun decrease =>
          (Count.minus 0 decrease).bind fun increase => grown.raise above.label increase)
        (fun raised => raised.uproot target.label) ?_ ?_ ?_
      · simp only [mutate, Tree.update, found, node?, live, link, materialized]
        cases old.counts.minus entry.counts with
        | error => rfl
        | ok decrease =>
          change (Count.minus 0 decrease).bind _ = ((Count.minus 0 decrease).bind _).bind _
          cases Count.minus 0 decrease <;> rfl
      · intro raised done
        obtain ⟨decrease, compared, rest⟩ := Fault.bind_eq_ok.mp done
        obtain ⟨increase, negated, wasRaised⟩ := Fault.bind_eq_ok.mp rest
        obtain ⟨-, rfl⟩ := Count.checked_eq_ok.mp compared
        obtain ⟨-, rfl⟩ := Count.checked_eq_ok.mp negated
        rw [zero_sub, neg_sub] at wasRaised
        obtain ⟨continues, root, raisedShows, words⟩ := onward raised wasRaised
        have stillAbove := Rose.at?_graft [new] aboveHere
        have stillBelow : (above.children ++ [new])[index]? = some target := by
          rw [List.getElem?_append_left (List.getElem?_eq_some_iff.mp below).1, below]
        rw [planned]
        exact raisedShows.realizes_uproot stillAbove stillBelow continues root words
      · intro fits
        obtain ⟨inRange, negInRange, wayFits⟩ := fits upper (entry.counts - old.counts)
          (by simp [Outline.ripple, there, facts, Node.facts])
        obtain ⟨raised, done⟩ := total wayFits
        refine ⟨raised, Fault.bind_eq_ok.mpr ⟨old.counts - entry.counts, ?_,
          Fault.bind_eq_ok.mpr ⟨entry.counts - old.counts, ?_, done⟩⟩⟩
        · rw [neg_sub] at negInRange
          exact Count.checked_of_inRange negInRange
        · rw [Count.minus, zero_sub, neg_sub, Count.checked_of_inRange inRange]

/-- Renamings refine those of outlines. -/
theorem Shows.rename (shows : tree.Shows shape outline) (scope previous name : String) :
    tree.Refines outline (.rename scope previous name) := by
  rcases shows.findWithin_cases scope previous with
    ⟨absent, none_there⟩ | ⟨position, target, here, found, there⟩
  · refine refines_of_ok ⟨tree, .ok ()⟩ ?_ ?_
    · simp [mutate, Tree.rename, absent]
    · simpa [Outline.mutate, Outline.rename, none_there] using shows.idle
  · obtain ⟨_, subshaped⟩ := shows.shaped.at? here
    obtain ⟨node, live, -⟩ := subshaped.top
    have relabelled : Relabelled tree.forest (tree.forest.set target.label { node with name }) :=
      Forest.relabelled_set live rfl
    have renamed := shows.renamed here live name
      (tree.observers.notify (.changed target.label))
    refine refines_of_ok ⟨_, .ok ()⟩ (by simp [mutate, Tree.rename, found, node?, live]; rfl) ?_
    simp only [Outline.mutate, Outline.rename, there]
    refine ⟨rfl, ⟨shape, renamed⟩, relabelled.continues, rfl, fun inRange => ?_⟩
    exact (Outline.label_renamed outline position name).2 ▸ inRange

/-- Every mutation of a tree is the mutation of its outline. -/
theorem Shows.mutate (shows : tree.Shows shape outline) :
    ∀ mutation, tree.Refines outline mutation
  | .create scope entry => shows.create scope entry
  | .update scope entry => shows.update scope entry
  | .rename scope previous name => shows.rename scope previous name
  | .delete scope name => shows.delete scope name

end Tree

end CodeCensus
