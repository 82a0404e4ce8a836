import CodeCensus.Proofs.Recount
import CodeCensus.Proofs.Refusal

/-!
# How counters come to differ from what they count

The excess of a node is what it counts beyond what its children contribute. Counters travel upward
unchanged, so a mutation moves the excess of one node only, the one whose children it exchanges, and
by as much as the counters of the exchanged units differ from their contributions. Everywhere above
that node a counter and one contribution to it grow alike.
-/

namespace CodeCensus

open Forest (Grafted Pruned Relabelled)

namespace Entry

/-- What the unit of an entry contributes to the counters of the unit around it. -/
def contribution (entry : Entry) : Count :=
  Facts.contribution ⟨entry.kind, entry.name, entry.counts⟩

/-- What an entry counts beyond what its nested entries contribute. -/
def excess (entry : Entry) : Count :=
  entry.counts - (entry.nested.map contribution).sum

mutual

/-- The entries that become nodes, in pre-order: everything but what is nested in a function. -/
def units : Entry → List Entry
  | ⟨.branch kind, name, counts, nested⟩ => ⟨.branch kind, name, counts, nested⟩ :: unitsAll nested
  | ⟨.function, name, counts, nested⟩ => [⟨.function, name, counts, nested⟩]

/-- The entries that become nodes, of some entries one after the other. -/
def unitsAll : List Entry → List Entry
  | [] => []
  | entry :: entries => entry.units ++ unitsAll entries

end

private theorem unitsAll_eq (entries : List Entry) : unitsAll entries = entries.flatMap units := by
  induction entries with
  | nil => rfl
  | cons entry entries inductionHypothesis =>
    rw [unitsAll, inductionHypothesis, List.flatMap_cons]

@[simp] theorem units_branch (kind : BranchKind) (name : String) (counts : Count)
    (nested : List Entry) : units ⟨.branch kind, name, counts, nested⟩ =
      ⟨.branch kind, name, counts, nested⟩ :: nested.flatMap units := by
  rw [units, unitsAll_eq]

@[simp] theorem units_function (name : String) (counts : Count) (nested : List Entry) :
    units ⟨.function, name, counts, nested⟩ = [⟨.function, name, counts, nested⟩] := by
  rw [units]

/-- Every unit that can count counts what is nested in it. -/
def SelfConsistent (entry : Entry) : Prop :=
  ∀ unit ∈ entry.units, unit.kind.isLeaf = false → unit.excess = 0

end Entry

/-- The entry that a mutation asks to add. -/
def Mutation.entry? : Mutation → Option Entry
  | .create _ entry => some entry
  | .update _ entry => some entry
  | .rename _ _ _ => none
  | .delete _ _ => none

/-- The outline of an entry contributes what the entry does. -/
theorem Outline.ofEntry_contribution (entry : Entry) :
    (ofEntry entry).label.contribution = entry.contribution := by
  obtain ⟨_ | _, name, counts, nested⟩ := entry <;> simp [Entry.contribution, Facts.contribution]

/-- Modules, packages and source files contribute what they count. -/
theorem Facts.contribution_of_plain {facts : Facts}
    (plain : facts.kind ∈ [.module, .package, .sourceFile]) : facts.contribution = facts.counts := by
  obtain ⟨kind, name, counts⟩ := facts
  simp only [List.mem_cons, List.not_mem_nil, or_false] at plain
  rcases plain with rfl | rfl | rfl <;> rfl

private theorem Outline.ofEntry_kind (entry : Entry) : (ofEntry entry).label.kind = entry.kind := by
  obtain ⟨_ | _, name, counts, nested⟩ := entry <;> simp

/-- What a unit counts beyond what the units in it contribute. -/
def Outline.excess (outline : Outline) : Count :=
  outline.label.counts - (outline.children.map fun child => child.label.contribution).sum

/-- With distinct labels, the same label means the same position. -/
theorem Rose.position_eq_iff {α : Type} {tree first second : Rose α} {upper lower : Position}
    (distinct : tree.labels.Nodup) (here : tree.at? upper = some first)
    (there : tree.at? lower = some second) : upper = lower ↔ first.label = second.label := by
  constructor
  · rintro rfl
    rw [Option.some.inj (here.symm.trans there)]
  · intro same
    exact congrArg Prod.fst
      (List.inj_on_of_nodup_map distinct (Rose.mem_nodes.mpr here) (Rose.mem_nodes.mpr there) same)

/-- Raising the way down to a unit adds to the excess of the unit alone: everywhere above it a
counter and one contribution to it grow alike. -/
theorem Outline.excess_exchange {outline unit other : Outline} {position lower : Position}
    (delta : Count) (here : outline.at? position = some unit)
    (branches : ∀ facts ∈ outline.spine position, facts.kind.isLeaf = false)
    (there : outline.at? lower = some other) :
    ∃ later : Outline, (outline.exchange delta id position).at? lower = some later ∧
      later.excess = other.excess + if lower = position then delta else 0 := by
  induction position generalizing outline lower with
  | nil =>
    obtain ⟨label, children⟩ := outline
    cases lower with
    | nil =>
      obtain rfl : ⟨label, children⟩ = other := Option.some.inj there
      exact ⟨⟨label.raise delta, children⟩, rfl, add_sub_right_comm _ _ _⟩
    | cons index rest => exact ⟨other, there, by simp⟩
  | cons index rest inductionHypothesis =>
    obtain ⟨child, found, below⟩ := Option.bind_eq_some_iff.mp here
    obtain ⟨label, children⟩ := outline
    obtain ⟨before, after, rfl, rfl⟩ := Rose.children_split found
    have spineEq : Rose.spine ⟨label, before ++ child :: after⟩ (before.length :: rest) =
        label :: child.spine rest := by simp [Rose.spine]
    rw [spineEq] at branches
    have onward : ∀ facts ∈ child.spine rest, facts.kind.isLeaf = false :=
      fun facts onWay => branches facts (List.mem_cons_of_mem _ onWay)
    have step : exchange delta id (before.length :: rest) ⟨label, before ++ child :: after⟩ =
        ⟨label.raise delta, before ++ exchange delta id rest child :: after⟩ := by
      rw [exchange, Rose.amend, Rose.modify_split]
    rw [step]
    cases lower with
    | nil =>
      obtain rfl : ⟨label, before ++ child :: after⟩ = other := Option.some.inj there
      have childBranch : child.label.kind.isLeaf = false :=
        onward _ (by cases rest <;> simp [Rose.spine])
      refine ⟨_, rfl, ?_⟩
      simp only [excess, List.map_append, List.map_cons, List.sum_append, List.sum_cons,
        label_exchange, Facts.raise_counts, Facts.contribution_raise childBranch]
      rw [if_neg (List.cons_ne_nil _ _).symm]
      abel
    | cons next further =>
      by_cases same : next = before.length
      · subst same
        have inChild : child.at? further = some other := by simpa using there
        obtain ⟨later, found, moved⟩ := inductionHypothesis below onward inChild
        exact ⟨later, by simpa using found, by simpa using moved⟩
      · refine ⟨other, ?_, by simp [same]⟩
        rw [← there]
        have elsewhere : (before ++ exchange delta id rest child :: after)[next]? =
            (before ++ child :: after)[next]? := by
          rw [← Rose.modify_split, List.getElem?_modify_ne _ _ (Ne.symm same)]
        rw [Rose.at?_cons, elsewhere]
        rfl

/-- What was live before a graft is live after it. -/
theorem Forest.Grafted.stays {before after : Forest} {parent : Handle} {grown : List (Rose Handle)}
    (grafted : Grafted before after parent grown) {handle : Handle} {node : Node}
    (live : before.node? handle = some node) :
    ∃ later, after.node? handle = some later := by
  by_cases here : handle = parent
  · subst here
    rw [grafted.parentNode, live]
    exact ⟨_, rfl⟩
  · exact ⟨node, (grafted.others handle (Forest.lt_fresh_of_node? live) here).trans live⟩

/-- A cut changes nothing that is shown of the nodes it leaves. -/
theorem Forest.Pruned.facts {before after : Forest} {parent handle : Handle} {index : Nat}
    {cut : Rose Handle} {node : Node} (pruned : Pruned before after parent index cut)
    (live : after.node? handle = some node) : after.facts handle = before.facts handle := by
  have survives : handle ∉ cut.labels := by
    intro inCut
    rw [pruned.removed handle inCut] at live
    cases live
  by_cases isParent : handle = parent
  · subst isParent
    have later := pruned.parentNode
    rw [live] at later
    obtain ⟨old, was, rfl⟩ := Option.map_eq_some_iff.mp later.symm
    rw [Forest.facts_of_node? live, Forest.facts_of_node? was]
    rfl
  · exact Forest.facts_congr (pruned.others handle survives isParent)

namespace Tree

variable {tree after : Tree} {shape parent target : Rose Handle} {outline : Outline}
  {position : Position} {handle : Handle} {node : Node}

/-- What a node counts beyond what its children contribute. -/
def excess (tree : Tree) (handle : Handle) : Count :=
  (tree.forest.facts handle).counts -
    ((tree.children handle).map fun child => (tree.forest.facts child).contribution).sum

/-- The excess of a live node, computed from its own links. -/
theorem excess_of_node (live : tree.forest.node? handle = some node) :
    tree.excess handle = (tree.forest.facts handle).counts -
      (node.children.map fun child => (tree.forest.facts child).contribution).sum := by
  simp [excess, children, node?, live]

/-- The excess of a node is that of its outline. -/
theorem excess_of_shaped {above : Option Handle} (shaped : tree.forest.Shaped above shape) :
    tree.excess shape.label = Outline.excess (shape.map tree.forest.facts) := by
  obtain ⟨node, live, -, childLinks, -⟩ := shaped.top
  rw [excess_of_node live, childLinks, Outline.excess]
  simp [Function.comp_def]

/-! ### One stage of a mutation -/

/-- Raising the way down to a node changes nothing that is shown of its children. -/
theorem Raised.facts_child {delta : Count} {index : Nat}
    (raised : Raised tree after delta (shape.spine position)) (distinct : shape.labels.Nodup)
    (here : shape.at? position = some parent) (below : parent.children[index]? = some target) :
    after.forest.facts target.label = tree.forest.facts target.label := by
  rw [raised.facts, if_neg]
  exact Rose.not_mem_spine_of_child distinct here (List.mem_of_getElem? below)
    (Rose.label_mem_labels target)

/-- A graft takes what the new unit contributes from the excess of its parent. -/
theorem Shows.excess_grown {new : Rose Handle} {entry : Entry} (shows : tree.Shows shape outline)
    (grown : Grown tree after parent.label [new] [Outline.ofEntry entry])
    (live : tree.forest.node? handle = some node) :
    after.excess handle =
      tree.excess handle - if handle = parent.label then entry.contribution else 0 := by
  have sameBelow : (node.children.map fun child => (after.forest.facts child).contribution) =
      node.children.map fun child => (tree.forest.facts child).contribution := by
    refine List.map_congr_left fun child member => ?_
    obtain ⟨below, belowLive, -⟩ := shows.formed.wellLinked.children handle node live child member
    rw [grown.grafted.facts belowLive]
  have sameFacts := grown.grafted.facts live
  split
  · next here =>
    subst here
    have later := grown.grafted.parentNode
    rw [live, Option.map_some] at later
    have newFacts : (after.forest.facts new.label).contribution = entry.contribution := by
      have shown := congrArg Rose.label (List.singleton_inj.mp grown.shown)
      rw [Rose.label_map] at shown
      rw [shown, Outline.ofEntry_contribution]
    rw [excess_of_node live, excess_of_node later, sameFacts]
    simp only [List.map_append, List.sum_append, sameBelow, List.map_singleton,
      List.sum_singleton, newFacts]
    abel
  · next elsewhere =>
    have later := grown.grafted.others handle (Forest.lt_fresh_of_node? live) elsewhere
    rw [live] at later
    rw [excess_of_node live, excess_of_node later, sameFacts, sameBelow, sub_zero]

/-- Raising a branch and everything above it adds to the excess of the branch alone. -/
theorem Shows.excess_raised {delta : Count} (shows : tree.Shows shape outline)
    (here : shape.at? position = some target)
    (live : tree.forest.node? target.label = some node) (branch : node.isLeaf = false)
    (raised : Raised tree after delta (shape.spine position)) {old : Node}
    (was : tree.forest.node? handle = some old) :
    after.excess handle = tree.excess handle + if handle = target.label then delta else 0 := by
  have afterShows := shows.raised here raised
  obtain ⟨lower, subshape, there, rfl⟩ : ∃ lower subshape, shape.at? lower = some subshape ∧
      subshape.label = handle := by
    obtain ⟨one, member, found⟩ := shows.formed.position was
    rwa [List.mem_singleton.mp member] at found
  have branches : ∀ facts ∈ outline.spine position, facts.kind.isLeaf = false := by
    rw [← shows.facts, Rose.spine_map]
    intro facts member
    obtain ⟨handle, onWay, rfl⟩ := List.mem_map.mp member
    obtain ⟨onWayNode, onWayLive, isBranch⟩ :=
      shows.shaped.branch_of_mem_spine here live branch onWay
    rw [Forest.facts_of_node? onWayLive]
    exact isBranch
  obtain ⟨later, laterThere, moved⟩ :=
    Outline.excess_exchange delta (shows.at? here) branches (shows.at? there)
  obtain rfl : subshape.map after.forest.facts = later :=
    Option.some.inj ((afterShows.at? there).symm.trans laterThere)
  have samePlace : lower = position ↔ subshape.label = target.label :=
    Rose.position_eq_iff shows.distinct there here
  obtain ⟨_, subshaped⟩ := shows.shaped.at? there
  obtain ⟨_, afterShaped⟩ := afterShows.shaped.at? there
  rw [excess_of_shaped subshaped, excess_of_shaped afterShaped, moved]
  simp only [samePlace]

/-- A cut gives what the old unit contributed back to the excess of its parent. -/
theorem Shows.excess_pruned {index : Nat} {afterShape : Rose Handle} {afterOutline : Outline}
    (shows : tree.Shows shape outline) (here : shape.at? position = some parent)
    (below : parent.children[index]? = some target)
    (cut : Pruned tree.forest after.forest parent.label index target)
    (afterShows : after.Shows afterShape afterOutline)
    (live : after.forest.node? handle = some node) :
    after.excess handle = tree.excess handle + if handle = parent.label then
      (tree.forest.facts target.label).contribution else 0 := by
  obtain ⟨_, parentShaped⟩ := shows.shaped.at? here
  obtain ⟨above, aboveLive, -, childLinks, -⟩ := parentShaped.top
  have parentNode := cut.parentNode
  rw [aboveLive, Option.map_some] at parentNode
  have survives : handle ∉ target.labels := by
    intro inCut
    rw [cut.removed handle inCut] at live
    cases live
  have sameBelow : (node.children.map fun child => (after.forest.facts child).contribution) =
      node.children.map fun child => (tree.forest.facts child).contribution := by
    refine List.map_congr_left fun child member => ?_
    obtain ⟨lower, lowerLive, -⟩ :=
      afterShows.formed.wellLinked.children handle node live child member
    rw [cut.facts lowerLive]
  rw [excess_of_node live, cut.facts live, sameBelow]
  split
  · next isParent =>
    subst isParent
    obtain rfl : _ = node := Option.some.inj (parentNode.symm.trans live)
    have atIndex : (above.children.map fun child =>
        (tree.forest.facts child).contribution)[index]? =
          some (tree.forest.facts target.label).contribution := by
      simp [childLinks, below]
    obtain ⟨bound, atBound⟩ := List.getElem?_eq_some_iff.mp atIndex
    have removed := List.CommMonoid.add_sum_eraseIdx bound
    rw [atBound] at removed
    rw [excess_of_node aboveLive, ← List.eraseIdx_map, ← removed]
    abel
  · next elsewhere =>
    rw [cut.others handle survives elsewhere] at live
    rw [excess_of_node live, add_zero]

/-- A new name leaves every excess as it was. -/
theorem excess_renamed (name : String) (observers : Observers)
    (live : tree.forest.node? target.label = some node) :
    Tree.excess ⟨tree.forest.set target.label { node with name }, tree.root, observers⟩ handle =
      tree.excess handle := by
  let later : Tree := ⟨tree.forest.set target.label { node with name }, tree.root, observers⟩
  have lookup : ∀ other, later.forest.node? other = if other = target.label then
      some { node with name } else tree.forest.node? other :=
    fun other => Forest.node?_set _ (Forest.lt_fresh_of_node? live)
  have sameFacts : ∀ other,
      (later.forest.facts other).counts = (tree.forest.facts other).counts ∧
      (later.forest.facts other).contribution = (tree.forest.facts other).contribution := by
    intro other
    have found := lookup other
    split at found
    · next here =>
      subst here
      rw [Forest.facts_of_node? found, Forest.facts_of_node? live]
      exact ⟨rfl, rfl⟩
    · rw [Forest.facts_congr found]
      exact ⟨rfl, rfl⟩
  have sameChildren : later.children handle = tree.children handle := by
    have found := lookup handle
    split at found
    · next here =>
      subst here
      simp only [children, node?, found, live]
    · simp only [children, node?, found]
  change later.excess handle = _
  simp only [excess, sameChildren, (sameFacts _).1, (sameFacts _).2]

/-! ### One mutation -/

/-- What a mutation adds to the excess of a node. Only a node whose children it exchanges is
disturbed, by what the counters and the contributions of these children differ in. -/
def disturbance (tree : Tree) (mutation : Mutation) (handle : Handle) : Count :=
  match mutation with
  | .create scope entry =>
    if tree.find? scope = some handle then entry.counts - entry.contribution else 0
  | .update scope entry =>
    match tree.findWithin? scope entry.name with
    | some target =>
      if tree.parent? target = some handle then
        (entry.counts - entry.contribution) -
          ((tree.forest.facts target).counts - (tree.forest.facts target).contribution)
      else 0
    | none => 0
  | .rename _ _ _ => 0
  | .delete scope name =>
    match tree.findWithin? scope name with
    | some target =>
      if tree.parent? target = some handle then
        (tree.forest.facts target).contribution - (tree.forest.facts target).counts
      else 0
    | none => 0

private theorem disturbance_of_misses {mutation : Mutation} (absent : tree.misses mutation = true) :
    tree.disturbance mutation handle = 0 := by
  cases mutation with
  | create scope entry => simp_all [misses, disturbance]
  | update scope entry => simp_all [misses, disturbance]
  | rename scope previous name => rfl
  | delete scope name => simp_all [misses, disturbance]

/-- A mutation moves the excess of the nodes that survive it by its disturbance. -/
theorem Shows.excess_mutated {mutation : Mutation} {outcome : Outcome} {old new : Node}
    (shows : tree.Shows shape outline) (done : tree.mutate mutation = .ok outcome)
    (success : outcome.result = .ok ()) (was : tree.forest.node? handle = some old)
    (is : outcome.tree.forest.node? handle = some new) :
    outcome.tree.excess handle = tree.excess handle + tree.disturbance mutation handle := by
  cases shows.course done with
  | missed absent => rw [disturbance_of_misses absent, add_zero]
  | refused refusal => cases success
  | @renamed scope previous name position target node found here live =>
    exact (excess_renamed name _ live).trans (add_zero _).symm
  | @created scope entry position parent new node grown raised found here live branch materializes
      grows raises =>
    obtain ⟨grownShows, stillHere, later, laterLive, stillBranch⟩ :=
      shows.grown_branch here live branch grows
    obtain ⟨raisedWay, -⟩ := grownShows.raised_branch stillHere laterLive stillBranch raises
    have sameHandle : some parent.label = some handle ↔ handle = parent.label := by
      rw [Option.some.injEq, eq_comm]
    obtain ⟨kept, keptLive⟩ := grows.grafted.stays was
    rw [grownShows.excess_raised stillHere laterLive stillBranch raisedWay keptLive,
      shows.excess_grown grows was, disturbance]
    simp only [found, sameHandle]
    split <;> abel
  | @deleted scope name upper index parent target above node lowered pruned found here below
      aboveLive branch live link increases raises removes =>
    obtain ⟨raisedWay, loweredShows⟩ := shows.raised_branch here aboveLive branch raises
    obtain ⟨cut, prunedShows⟩ := loweredShows.pruned_branch here below removes
    have targetFacts := raisedWay.facts_child shows.distinct here below
    have parentLink : tree.parent? target.label = some handle ↔ handle = parent.label := by
      simp [parent?, node?, live, link, eq_comm]
    rw [loweredShows.excess_pruned here below cut prunedShows is,
      shows.excess_raised here aboveLive branch raisedWay was, targetFacts, disturbance]
    simp only [found, parentLink, Forest.facts_of_node? live, Node.facts]
    split <;> abel
  | @updated scope entry upper index parent target new above node grown raised pruned found here
      below aboveLive branch live link decreases increases materializes grows raises removes =>
    obtain ⟨grownShows, stillHere, later, laterLive, stillBranch⟩ :=
      shows.grown_branch here aboveLive branch grows
    obtain ⟨raisedWay, raisedShows⟩ :=
      grownShows.raised_branch stillHere laterLive stillBranch raises
    have stillBelow := getElem?_grown [new] below
    obtain ⟨cut, prunedShows⟩ := raisedShows.pruned_branch stillHere stillBelow removes
    have targetFacts := raisedWay.facts_child grownShows.distinct stillHere stillBelow
    rw [grows.grafted.facts live] at targetFacts
    have parentLink : tree.parent? target.label = some handle ↔ handle = parent.label := by
      simp [parent?, node?, live, link, eq_comm]
    obtain ⟨kept, keptLive⟩ := grows.grafted.stays was
    rw [raisedShows.excess_pruned stillHere stillBelow cut prunedShows is,
      grownShows.excess_raised stillHere laterLive stillBranch raisedWay keptLive,
      shows.excess_grown grows was, targetFacts, disturbance]
    simp only [found, parentLink, Forest.facts_of_node? live, Node.facts]
    split <;> abel

/-! ### What arrives -/

/-- A node shows a unit of an entry, with the excess that the unit has in the entry. -/
structure Embodies (tree : Tree) (handle : Handle) (unit : Entry) : Prop where
  facts : tree.forest.facts handle = (Outline.ofEntry unit).label
  excess : unit.kind.isLeaf = false → tree.excess handle = unit.excess

/-- A node that embodies a unit has its kind. -/
theorem Embodies.kind {unit : Entry} (embodies : tree.Embodies handle unit)
    (live : tree.node? handle = some node) : node.kind = unit.kind := by
  have shown := embodies.facts
  rw [Forest.facts_of_node? live] at shown
  rw [← Outline.ofEntry_kind, ← shown]
  rfl

private theorem embodied_all {entries : List Entry} {shapes : List (Rose Handle)}
    (each : ∀ entry ∈ entries, ∀ shape ∈ shapes,
      shape.map tree.forest.facts = Outline.ofEntry entry →
      List.Forall₂ tree.Embodies shape.labels entry.units)
    (shown : shapes.map (Rose.map tree.forest.facts) = entries.map Outline.ofEntry) :
    List.Forall₂ tree.Embodies (shapes.flatMap Rose.labels) (entries.flatMap Entry.units) := by
  induction entries generalizing shapes with
  | nil =>
    obtain rfl := List.map_eq_nil_iff.mp shown
    exact .nil
  | cons entry entries inductionHypothesis =>
    obtain ⟨shape, others, rfl, first, rest⟩ := List.map_eq_cons_iff.mp shown
    rw [List.flatMap_cons, List.flatMap_cons]
    refine List.rel_append (each entry (by simp) shape (by simp) first) ?_
    refine inductionHypothesis (fun other member one oneMember => ?_) rest
    exact each other (List.mem_cons_of_mem _ member) one (List.mem_cons_of_mem _ oneMember)

/-- A shape that shows an entry embodies its units, in pre-order. -/
theorem embodied {entry : Entry} {new : Rose Handle} {above : Option Handle}
    (shaped : tree.forest.Shaped above new)
    (shown : new.map tree.forest.facts = Outline.ofEntry entry) :
    List.Forall₂ tree.Embodies new.labels entry.units := by
  induction entry using Entry.induct generalizing new above with
  | entry kind name counts nested inductionHypothesis =>
    have topFacts := congrArg Rose.label shown
    have topExcess := excess_of_shaped shaped
    rw [Rose.label_map] at topFacts
    rw [shown] at topExcess
    obtain ⟨top, below⟩ := new
    cases kind with
    | function =>
      have nothing := congrArg Rose.children shown
      rw [Rose.children_map, Outline.ofEntry_function] at nothing
      obtain rfl : below = [] := List.map_eq_nil_iff.mp nothing
      rw [Entry.units_function]
      exact .cons ⟨topFacts, fun branch => by cases branch⟩ .nil
    | branch kind =>
      rw [Rose.map_mk, Outline.ofEntry_branch, Rose.mk.injEq] at shown
      rw [Rose.labels_mk, Entry.units_branch]
      refine .cons ⟨topFacts, fun _ => ?_⟩ (embodied_all (fun inner member shape inBelow => ?_) shown.2)
      · rw [topExcess, Outline.excess, Outline.ofEntry_branch, Entry.excess]
        simp [Function.comp_def, Outline.ofEntry_contribution]
      · exact inductionHypothesis inner member (shaped.child inBelow)

/-- The units that a mutation adds to a tree. -/
def arrivals (tree : Tree) : Mutation → List Entry
  | .create scope entry => if (tree.find? scope).isSome then entry.units else []
  | .update scope entry => if (tree.findWithin? scope entry.name).isSome then entry.units else []
  | .rename _ _ _ => []
  | .delete _ _ => []

/-- A mutation that adds a unit finds what it looks up, and the unit is one of its entry. -/
theorem entry_of_arrivals {mutation : Mutation} {unit : Entry}
    (arrives : unit ∈ tree.arrivals mutation) :
    ∃ entry, mutation.entry? = some entry ∧ unit ∈ entry.units ∧ tree.misses mutation = false := by
  cases mutation with
  | create scope entry =>
    simp only [arrivals, List.mem_ite_nil_right] at arrives
    exact ⟨entry, rfl, arrives.2, Option.isNone_eq_false_iff.mpr arrives.1⟩
  | update scope entry =>
    simp only [arrivals, List.mem_ite_nil_right] at arrives
    exact ⟨entry, rfl, arrives.2, Option.isNone_eq_false_iff.mpr arrives.1⟩
  | rename scope previous name => cases arrives
  | delete scope name => cases arrives

/-- The live nodes of a tree are those of its shape. -/
theorem Shows.live_iff (shows : tree.Shows shape outline) :
    (∃ node, tree.node? handle = some node) ↔ handle ∈ shape.labels := by
  refine ⟨fun ⟨node, live⟩ => ?_, shows.shaped.live⟩
  simpa using shows.formed.exhaustive handle node live

private theorem Shows.arrived_iff {afterShape : Rose Handle} {afterOutline : Outline}
    (shows : tree.Shows shape outline) (afterShows : after.Shows afterShape afterOutline) :
    (tree.node? handle = none ∧ ∃ node, after.node? handle = some node) ↔
      handle ∉ shape.labels ∧ handle ∈ afterShape.labels := by
  rw [afterShows.live_iff, ← shows.live_iff, ← Option.ne_none_iff_exists', not_ne_iff]

/-- What a graft brings is new, and is all that is new. -/
theorem arrived_of_graft {new : Rose Handle} (here : shape.at? position = some parent)
    (distinct : (shape.graft [new] position).labels.Nodup) : new.labels.Nodup ∧
      ∀ handle, handle ∈ new.labels ↔
        handle ∉ shape.labels ∧ handle ∈ (shape.graft [new] position).labels := by
  have labels := Rose.labels_graft [new] here
  rw [List.flatMap_singleton] at labels
  obtain ⟨-, newDistinct, disjoint⟩ := List.nodup_append.mp (labels.nodup_iff.mp distinct)
  refine ⟨newDistinct, fun handle => ?_⟩
  rw [labels.mem_iff, List.mem_append]
  constructor
  · intro inNew
    exact ⟨fun old => disjoint handle old handle inNew rfl, .inr inNew⟩
  · rintro ⟨fresh, old | inNew⟩
    · exact absurd old fresh
    · exact inNew

/-- What grew shows its entry still when everything above it was raised. -/
theorem Grown.shown_raised {before raised : Tree} {new top : Rose Handle} {entry : Entry}
    {delta : Count} (grown : Grown before tree parent.label [new] [Outline.ofEntry entry])
    (way : Raised tree raised delta (shape.spine position)) (distinct : shape.labels.Nodup)
    (here : shape.at? position = some top) (member : new ∈ top.children) :
    new.map raised.forest.facts = Outline.ofEntry entry := by
  rw [← List.singleton_inj.mp grown.shown]
  apply Rose.map_congr
  intro handle inNew
  rw [way.facts, if_neg]
  exact Rose.not_mem_spine_of_child distinct here member inNew

/-- The new nodes after a mutation embody, in pre-order, the units that it adds. -/
theorem Shows.arrivals_embodied {mutation : Mutation} {outcome : Outcome}
    (shows : tree.Shows shape outline) (done : tree.mutate mutation = .ok outcome)
    (success : outcome.result = .ok ()) :
    ∃ arrived : List Handle, arrived.Nodup ∧
      (∀ handle, handle ∈ arrived ↔
        tree.node? handle = none ∧ ∃ node, outcome.tree.node? handle = some node) ∧
      List.Forall₂ outcome.tree.Embodies arrived (tree.arrivals mutation) := by
  cases shows.course done with
  | missed absent =>
    refine ⟨[], .nil, fun handle => ?_, ?_⟩
    · rw [shows.arrived_iff shows]
      simp
    · have nothing : tree.arrivals mutation = [] := by
        cases mutation <;> simp_all [misses, arrivals]
      rw [nothing]
      exact .nil
  | refused refusal => cases success
  | renamed found here live =>
    refine ⟨[], .nil, fun handle => ?_, .nil⟩
    refine Iff.trans ?_ (shows.arrived_iff (shows.renamed here live _ _)).symm
    simp
  | @created scope entry position parent new node grown raised found here live branch materializes
      grows raises =>
    obtain ⟨grownShows, stillHere, later, laterLive, stillBranch⟩ :=
      shows.grown_branch here live branch grows
    obtain ⟨raisedWay, raisedShows⟩ :=
      grownShows.raised_branch stillHere laterLive stillBranch raises
    obtain ⟨_, parentShaped⟩ := raisedShows.shaped.at? stillHere
    obtain ⟨newDistinct, arrives⟩ := arrived_of_graft here grownShows.distinct
    refine ⟨new.labels, newDistinct, fun handle => ?_, ?_⟩
    · rw [shows.arrived_iff raisedShows]
      exact arrives handle
    · rw [arrivals, found, Option.isSome_some, if_pos rfl]
      apply embodied (parentShaped.child (by simp))
      exact grows.shown_raised raisedWay grownShows.distinct stillHere (by simp)
  | @deleted scope name upper index parent target above node lowered pruned found here below
      aboveLive branch live link increases raises removes =>
    obtain ⟨-, loweredShows⟩ := shows.raised_branch here aboveLive branch raises
    obtain ⟨-, prunedShows⟩ := loweredShows.pruned_branch here below removes
    refine ⟨[], .nil, fun handle => ?_, .nil⟩
    rw [shows.arrived_iff prunedShows, (Rose.labels_prune here below).mem_iff, List.mem_append]
    simp only [List.not_mem_nil, false_iff]
    tauto
  | @updated scope entry upper index parent target new above node grown raised pruned found here
      below aboveLive branch live link decreases increases materializes grows raises removes =>
    obtain ⟨grownShows, stillHere, later, laterLive, stillBranch⟩ :=
      shows.grown_branch here aboveLive branch grows
    obtain ⟨raisedWay, raisedShows⟩ :=
      grownShows.raised_branch stillHere laterLive stillBranch raises
    have stillBelow := getElem?_grown [new] below
    obtain ⟨cut, prunedShows⟩ := raisedShows.pruned_branch stillHere stillBelow removes
    have prunedHere := Rose.at?_prune index stillHere
    obtain ⟨_, parentShaped⟩ := prunedShows.shaped.at? prunedHere
    have newShaped : pruned.forest.Shaped (some parent.label) new := by
      refine parentShaped.child ?_
      rw [List.eraseIdx_append_of_lt_length (List.getElem?_eq_some_iff.mp below).1]
      simp
    have prunedLabels := Rose.labels_prune stillHere stillBelow
    obtain ⟨newDistinct, arrives⟩ := arrived_of_graft here grownShows.distinct
    have inShape : target.labels ⊆ shape.labels := by
      have down : shape.at? (upper ++ [index]) = some target := by
        simp [Rose.at?_append, here, below]
      exact fun handle => Rose.labels_subset down
    refine ⟨new.labels, newDistinct, fun handle => ?_, ?_⟩
    · rw [shows.arrived_iff prunedShows, arrives, prunedLabels.mem_iff, List.mem_append]
      -- What was cut off was there before, so it is not among the new.
      constructor
      · rintro ⟨fresh, kept | gone⟩
        · exact ⟨fresh, kept⟩
        · exact absurd (inShape gone) fresh
      · rintro ⟨fresh, kept⟩
        exact ⟨fresh, .inl kept⟩
    · rw [arrivals, found, Option.isSome_some, if_pos rfl]
      apply embodied newShaped
      rw [← grows.shown_raised raisedWay grownShows.distinct stillHere (by simp)]
      apply Rose.map_congr
      intro handle inNew
      obtain ⟨survivor, survives⟩ := newShaped.live inNew
      exact cut.facts survives

/-! ### Silence of the audit -/

/-- A leaf without children counts nothing and contains nothing. -/
theorem excess_of_leaf (live : tree.forest.node? handle = some node) (leaf : node.isLeaf = true)
    (terminal : node.children = []) : tree.excess handle = 0 := by
  rw [excess_of_node live, terminal, Forest.facts_of_node? live]
  obtain ⟨name, payload, link, children⟩ := node
  cases payload with
  | branch => cases leaf
  | leaf => rfl

/-- A shape is balanced when no node in it has any excess. -/
theorem balanced_iff_excess {above : Option Handle} (shaped : tree.forest.Shaped above shape) :
    Outline.Balanced (shape.map tree.forest.facts) ↔
      ∀ handle ∈ shape.labels, tree.excess handle = 0 := by
  induction shape using Rose.induct generalizing above with
  | node handle below inductionHypothesis =>
    obtain ⟨node, live, -, childLinks, terminal⟩ := shaped.top
    have topExcess := excess_of_shaped shaped
    cases leaf : node.isLeaf with
    | true =>
      obtain rfl : below = [] := terminal leaf
      have nothing := excess_of_leaf live leaf childLinks
      rw [Rose.map_mk, Forest.facts_of_node? live]
      obtain ⟨name, payload, link, children⟩ := node
      cases payload with
      | branch => cases leaf
      | leaf => exact iff_of_true (.function name) (by simpa using nothing)
    | false =>
      obtain ⟨kind, name, counts, isBranch⟩ : ∃ kind name counts,
          tree.forest.facts handle = ⟨.branch kind, name, counts⟩ := by
        rw [Forest.facts_of_node? live]
        obtain ⟨name, payload, link, children⟩ := node
        cases payload with
        | branch kind counts => exact ⟨kind, name, counts, rfl⟩
        | leaf => cases leaf
      have topBalance : (tree.forest.facts handle).counts =
          ((below.map (Rose.map tree.forest.facts)).map fun child => child.label.contribution).sum ↔
          tree.excess handle = 0 := by
        rw [topExcess, Outline.excess, Rose.map_mk, sub_eq_zero]
      have each : (∀ child ∈ below.map (Rose.map tree.forest.facts), Outline.Balanced child) ↔
          ∀ handle ∈ below.flatMap Rose.labels, tree.excess handle = 0 := by
        simp only [List.forall_mem_map, List.mem_flatMap, forall_exists_index, and_imp]
        constructor
        · intro balanced lower child member inChild
          exact (inductionHypothesis child member (shaped.child member)).mp
            (balanced child member) lower inChild
        · intro none child member
          apply (inductionHypothesis child member (shaped.child member)).mpr
          exact fun lower inChild => none lower child member inChild
      rw [Rose.labels_mk, List.forall_mem_cons, ← each, ← topBalance, Rose.map_mk, isBranch]
      exact Outline.balanced_branch

/-- An audit that is silent has told what the top should count, so that is in words. -/
theorem Shows.words_of_silence (shows : tree.Shows shape outline) (silent : tree.recount = .ok []) :
    outline.label.counts.inRange := by
  obtain ⟨top, live, -⟩ := shows.root_live
  have sameTop : outline.label = top.facts := by
    rw [← shows.facts, Rose.label_map, shows.top, Forest.facts_of_node? live]
  have branch : top.isLeaf = false := by
    have isModule := shows.module
    rw [sameTop] at isModule
    exact congrArg Kind.isLeaf isModule
  have walked : tree.root ∈ tree.forest.postorder tree.root := by
    rw [← shows.top, shows.shaped.postorder shows.distinct, Rose.mem_labelsUp]
    exact Rose.label_mem_labels shape
  obtain ⟨found, each, nothing⟩ := Fault.bind_eq_ok.mp silent
  obtain ⟨result, member, told⟩ := Fault.mapM_mem each walked
  cases result with
  | some mismatch =>
    have listed : mismatch ∈ found.filterMap id := List.mem_filterMap.mpr ⟨_, member, rfl⟩
    rw [Except.ok.inj nothing] at listed
    cases listed
  | none =>
    have expected := (mismatch?_eq_none live branch).mp told
    obtain ⟨contributions, -, totalled⟩ := Fault.bind_eq_ok.mp expected
    rw [sameTop]
    exact (Count.total_eq_ok totalled).2

/-- The audit of a tree is silent exactly when its root counts in words and no node has any
excess. -/
theorem Shows.silent_iff (shows : tree.Shows shape outline) : tree.recount = .ok [] ↔
    outline.label.counts.inRange ∧ ∀ handle ∈ shape.labels, tree.excess handle = 0 := by
  rw [← balanced_iff_excess shows.shaped, shows.facts]
  constructor
  · intro silent
    have words := shows.words_of_silence silent
    exact ⟨words, (shows.recount_iff words).mp silent⟩
  · rintro ⟨words, balanced⟩
    exact (shows.recount_iff words).mpr balanced

/-- The kinds of the units that a mutation adds, replaces or takes away. A mutation that misses its
scope or its target exchanges nothing. -/
def turnover (tree : Tree) : Mutation → List Kind
  | .create scope entry => if (tree.find? scope).isSome then [entry.kind] else []
  | .update scope entry => (tree.findWithin? scope entry.name).toList.flatMap fun target =>
      [entry.kind, (tree.forest.facts target).kind]
  | .rename _ _ _ => []
  | .delete scope name =>
    ((tree.findWithin? scope name).map fun target => (tree.forest.facts target).kind).toList

/-- A mutation exchanges modules, packages and source files only, and what it adds is
self-consistent. -/
structure Plain (tree : Tree) (mutation : Mutation) : Prop where
  consistent : ∀ entry, mutation.entry? = some entry → tree.misses mutation = false →
    entry.SelfConsistent
  kinds : ∀ kind ∈ tree.turnover mutation, kind ∈ [.module, .package, .sourceFile]

/-- Plain mutations disturb nothing. -/
theorem Plain.undisturbed {mutation : Mutation} (plain : tree.Plain mutation) (handle : Handle) :
    tree.disturbance mutation handle = 0 := by
  have counted : ∀ entry : Entry, entry.kind ∈ [.module, .package, .sourceFile] →
      entry.counts - entry.contribution = 0 := by
    intro entry kind
    have contributed : entry.contribution = entry.counts := Facts.contribution_of_plain kind
    rw [contributed, sub_self]
  have kinds := plain.kinds
  cases mutation with
  | create scope entry =>
    rw [disturbance]
    split
    · next found => exact counted entry (kinds _ (by simp [turnover, found]))
    · rfl
  | update scope entry =>
    rw [disturbance]
    split
    · next target found =>
      rw [counted entry (kinds _ (by simp [turnover, found]))]
      have gone := Facts.contribution_of_plain
        (kinds (tree.forest.facts target).kind (by simp [turnover, found]))
      rw [gone, sub_self, sub_self, ite_self]
    · rfl
  | rename scope previous name => rfl
  | delete scope name =>
    rw [disturbance]
    split
    · next target found =>
      have gone := Facts.contribution_of_plain
        (kinds (tree.forest.facts target).kind (by simp [turnover, found]))
      rw [gone, sub_self, ite_self]
    · rfl

/-- The later trees that observers and mutations can make of a tree if each mutation that succeeds is
plain. -/
inductive PlainlyEvolves (first : Tree) : Tree → Prop
  | refl : PlainlyEvolves first first
  | mutated {tree : Tree} {mutation : Mutation} {outcome : Outcome}
      (earlier : PlainlyEvolves first tree)
      (plain : outcome.result = .ok () → tree.Plain mutation)
      (done : tree.mutate mutation = .ok outcome) : PlainlyEvolves first outcome.tree
  | observed {tree : Tree} (earlier : PlainlyEvolves first tree) (observers : Observers) :
      PlainlyEvolves first { tree with observers }

/-- Each of the nodes that embody some units embodies one of them. -/
theorem unit_of_embodied {handles : List Handle} {units : List Entry}
    (embodied : List.Forall₂ tree.Embodies handles units) (member : handle ∈ handles) :
    ∃ unit ∈ units, tree.Embodies handle unit := by
  induction embodied with
  | nil => cases member
  | @cons first unit _ _ here _ inductionHypothesis =>
    rcases List.mem_cons.mp member with rfl | later
    · exact ⟨unit, by simp, here⟩
    · obtain ⟨other, otherMember, told⟩ := inductionHypothesis later
      exact ⟨other, List.mem_cons_of_mem _ otherMember, told⟩

/-- A node that a self-consistent entry brings has no excess. -/
theorem Shows.excess_arrived {mutation : Mutation} {outcome : Outcome}
    (shows : tree.Shows shape outline) (done : tree.mutate mutation = .ok outcome)
    (success : outcome.result = .ok ())
    (consistent : ∀ entry, mutation.entry? = some entry → tree.misses mutation = false →
      entry.SelfConsistent)
    (was : tree.node? handle = none) (live : outcome.tree.node? handle = some node) :
    outcome.tree.excess handle = 0 := by
  obtain ⟨-, ⟨laterShape, laterShows⟩, -⟩ := (shows.mutate mutation).1 outcome done
  obtain ⟨arrived, -, arrivals, embodied⟩ := shows.arrivals_embodied done success
  obtain ⟨unit, unitMember, embodies⟩ :=
    unit_of_embodied embodied ((arrivals handle).mpr ⟨was, node, live⟩)
  cases leaf : node.isLeaf with
  | true =>
    exact excess_of_leaf live leaf (laterShows.formed.wellLinked.terminal handle node live leaf)
  | false =>
    have branch : unit.kind.isLeaf = false := by
      rw [← embodies.kind live]
      exact leaf
    obtain ⟨entry, brought, inEntry, finds⟩ := entry_of_arrivals unitMember
    rw [embodies.excess branch]
    exact consistent entry brought finds unit inEntry branch

/-- A mutation that is plain if it succeeds keeps a silent audit silent. -/
theorem Shows.silent_mutated {mutation : Mutation} {outcome : Outcome}
    (shows : tree.Shows shape outline) (silent : tree.recount = .ok [])
    (plain : outcome.result = .ok () → tree.Plain mutation)
    (done : tree.mutate mutation = .ok outcome) : outcome.tree.recount = .ok [] := by
  cases result : outcome.result with
  | error cause =>
    rw [((shows.course done).refusal_of_error result).2]
    exact silent
  | ok _ =>
    obtain ⟨words, balanced⟩ := shows.silent_iff.mp silent
    obtain ⟨-, ⟨laterShape, laterShows⟩, -, -, laterWords⟩ := (shows.mutate mutation).1 outcome done
    refine laterShows.silent_iff.mpr ⟨laterWords words, fun handle member => ?_⟩
    obtain ⟨node, live⟩ := laterShows.live_iff.mpr member
    cases was : tree.node? handle with
    | some old =>
      rw [shows.excess_mutated done result was live, (plain result).undisturbed, add_zero]
      exact balanced handle (shows.live_iff.mp ⟨old, was⟩)
    | none => exact shows.excess_arrived done result (plain result).consistent was live

/-- Plain mutations keep a silent audit silent, however many they are. -/
theorem PlainlyEvolves.silent {first : Tree} (evolves : first.PlainlyEvolves tree)
    (reachable : first.Reachable) (silent : first.recount = .ok []) :
    tree.Reachable ∧ tree.recount = .ok [] := by
  induction evolves with
  | refl => exact ⟨reachable, silent⟩
  | mutated _ plain done inductionHypothesis =>
    obtain ⟨treeReachable, treeSilent⟩ := inductionHypothesis
    obtain ⟨entry, evolved⟩ := treeReachable
    obtain ⟨shape, outline, shows⟩ := Reachable.shows ⟨entry, evolved⟩
    exact ⟨⟨entry, .mutated evolved done⟩, shows.silent_mutated treeSilent plain done⟩
  | observed _ observers inductionHypothesis =>
    obtain ⟨treeReachable, treeSilent⟩ := inductionHypothesis
    obtain ⟨entry, evolved⟩ := treeReachable
    exact ⟨⟨entry, .observed evolved observers⟩, treeSilent⟩

/-- A mutation that succeeds moves the excess of every node that survives it by its disturbance,
which is nothing anywhere but at the node whose children it exchanges. Every new node has the excess
of its own unit of the entry. So an audit that is silent stays silent as long as self-consistent
entries come, and only modules, packages and source files come, give way and go. What is refused or
misses its target may be of any kind. -/
theorem excess_follows_disturbance (tree : Tree) (reachable : tree.Reachable) :
    (∀ mutation outcome, tree.mutate mutation = .ok outcome → outcome.result = .ok () →
      (∀ handle old new, tree.node? handle = some old → outcome.tree.node? handle = some new →
        outcome.tree.excess handle = tree.excess handle + tree.disturbance mutation handle) ∧
      ∃ arrived : List Handle, arrived.Nodup ∧
        (∀ handle, handle ∈ arrived ↔
          tree.node? handle = none ∧ ∃ node, outcome.tree.node? handle = some node) ∧
        List.Forall₂ outcome.tree.Embodies arrived (tree.arrivals mutation)) ∧
    (tree.recount = .ok [] → ∀ later, tree.PlainlyEvolves later → later.recount = .ok []) := by
  obtain ⟨shape, outline, shows⟩ := reachable.shows
  constructor
  · intro mutation outcome done success
    refine ⟨fun handle old new was is => ?_, shows.arrivals_embodied done success⟩
    exact shows.excess_mutated done success was is
  · intro silent later evolves
    exact (evolves.silent reachable silent).2

/-- A class right in a project leaves the project one class short; a source file with the same class
leaves it balanced. -/
theorem bare_class_disturbs_project :
    let tree := (ofEntry (.withKind .module (.function "p"))).tree
    let bare : Entry := .ofClass "A" [.function "f"]
    let file : Entry := ⟨.sourceFile, "A.java", ⟨1, 1⟩, [bare]⟩
    tree.Reachable ∧ tree.recount = .ok [] ∧
      (∃ outcome, tree.mutate (.create "p" bare) = .ok outcome ∧
        outcome.tree.excess 0 = ⟨-1, 0⟩) ∧
      ∃ outcome, tree.mutate (.create "p" file) = .ok outcome ∧ outcome.tree.recount = .ok [] := by
  intro tree bare file
  have reachable : tree.Reachable := ⟨_, .refl⟩
  have silent : tree.recount = .ok [] := rfl
  obtain ⟨law, silence⟩ := excess_follows_disturbance tree reachable
  refine ⟨reachable, silent, ⟨_, rfl, ?_⟩, _, rfl, ?_⟩
  · obtain ⟨survivors, -⟩ := law (.create "p" bare) _ rfl rfl
    rw [survivors 0 _ _ rfl rfl]
    rfl
  · have plain : tree.Plain (.create "p" file) := by
      constructor
      · intro entry brought _ unit member branch
        obtain rfl : file = entry := Option.some.inj brought
        simp only [file, bare, Entry.ofClass, Entry.function, Entry.units_branch,
          Entry.units_function, List.flatMap_cons, List.flatMap_nil, List.append_nil,
          List.mem_cons, List.not_mem_nil, or_false] at member
        rcases member with rfl | rfl | rfl
        · rfl
        · rfl
        · cases branch
      · decide
    exact silence silent _ (.mutated .refl (fun _ => plain) rfl)

end Tree

end CodeCensus
