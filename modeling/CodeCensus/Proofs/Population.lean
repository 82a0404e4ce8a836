import CodeCensus.Proofs.Excess
import Mathlib.Logic.Relation

/-!
# What stands below a node

The population of a node is how many classes and functions stand strictly below it, however deep. A
branch counts its population and, on top of it, the excess of every node in its subtree: counters
travel upward, so what one node counts too much or too little is seen by all its ancestors.
-/

namespace CodeCensus

open Relation (ReflTransGen TransGen)

/-- What a unit itself is counted as by the units around it. -/
def Kind.own : Kind → Count
  | .function => ⟨0, 1⟩
  | .classLike => ⟨1, 0⟩
  | .branch _ => 0

/-- A class counts one class, a function one function, and all else nothing. -/
theorem Kind.own_eq (kind : Kind) : kind.own =
    ⟨if kind = .classLike then 1 else 0, if kind = .function then 1 else 0⟩ := by
  obtain (_ | _ | _ | _) | _ := kind <;> rfl

/-- A unit contributes itself and what it counts, and a function counts nothing. -/
theorem Facts.contribution_eq_add_own {facts : Facts}
    (bare : facts.kind = .function → facts.counts = 0) :
    facts.contribution = facts.counts + facts.kind.own := by
  obtain ⟨kind, name, counts⟩ := facts
  cases kind with
  | function =>
    obtain rfl : counts = 0 := bare rfl
    exact (zero_add _).symm
  | branch kind =>
    cases kind with
    | classLike => rfl
    | _ => exact (add_zero counts).symm

namespace Tree

variable {tree : Tree} {shape : Rose Handle} {outline : Outline} {above : Option Handle}
  {handle lower : Handle} {node : Node}

/-- The handles strictly below a node, in pre-order. -/
def below (tree : Tree) (handle : Handle) : List Handle :=
  (tree.forest.preorder handle).tail

/-- How many nodes of a kind stand strictly below a node. -/
def countBelow (tree : Tree) (kind : Kind) (handle : Handle) : Nat :=
  (tree.below handle).countP fun lower => (tree.node? lower).any fun node => node.kind = kind

/-- How many classes and functions stand strictly below a node. -/
def population (tree : Tree) (handle : Handle) : Count :=
  ⟨tree.countBelow .classLike handle, tree.countBelow .function handle⟩

/-! ### Handles below a node -/

/-- The nodes below a node are those in the shapes of its children. -/
theorem below_of_shaped (shaped : tree.forest.Shaped above shape) (distinct : shape.labels.Nodup) :
    tree.below shape.label = shape.children.flatMap Rose.labels := by
  obtain ⟨label, children⟩ := shape
  rw [below, shaped.preorder distinct, Rose.labels_mk, List.tail_cons]

/-- Every node of a tree is at the top of a shape of its own. -/
theorem Shows.subshape (shows : tree.Shows shape outline) (live : tree.node? handle = some node) :
    ∃ subshape above, subshape.label = handle ∧ tree.forest.Shaped above subshape ∧
      subshape.labels.Nodup ∧ ∀ lower ∈ subshape.labels, lower ∈ shape.labels := by
  obtain ⟨position, subshape, here, rfl⟩ := Rose.mem_labels.mp (shows.live_iff.mp ⟨node, live⟩)
  obtain ⟨above, subshaped⟩ := shows.shaped.at? here
  exact ⟨subshape, above, rfl, subshaped, Rose.distinct_of_at? shows.distinct here,
    fun _ => Rose.labels_subset here⟩

/-- The handles below a node are those that child lists lead to, each of them once. -/
theorem Shows.mem_below (shows : tree.Shows shape outline) (live : tree.node? handle = some node) :
    (tree.below handle).Nodup ∧
      ∀ lower, lower ∈ tree.below handle ↔ TransGen tree.forest.IsChild handle lower := by
  obtain ⟨subshape, above, rfl, shaped, distinct, -⟩ := shows.subshape live
  have listed := below_of_shaped shaped distinct
  obtain ⟨top, topLive, -, childLinks, -⟩ := shaped.top
  rw [listed]
  constructor
  · obtain ⟨label, children⟩ := subshape
    rw [Rose.labels_mk, List.nodup_cons] at distinct
    exact distinct.2
  · intro lower
    rw [List.mem_flatMap, TransGen.head'_iff]
    constructor
    · rintro ⟨child, member, inChild⟩
      obtain ⟨position, target, here, rfl⟩ := Rose.mem_labels.mp inChild
      refine ⟨child.label, ⟨top, topLive, ?_⟩, (shaped.child member).descends here⟩
      rw [childLinks]
      exact List.mem_map_of_mem member
    · rintro ⟨next, ⟨upper, upperLive, inChildren⟩, reached⟩
      obtain rfl : top = upper := Option.some.inj (topLive.symm.trans upperLive)
      rw [childLinks] at inChildren
      obtain ⟨child, member, rfl⟩ := List.mem_map.mp inChildren
      exact ⟨child, member, (shaped.child member).mem_labels_iff.mpr reached⟩

/-! ### Counters and population -/

private theorem own_facts (tree : Tree) (handle : Handle) : (tree.forest.facts handle).kind.own =
    ⟨if (tree.node? handle).any (fun node => node.kind = .classLike) then 1 else 0,
      if (tree.node? handle).any (fun node => node.kind = .function) then 1 else 0⟩ := by
  rw [Forest.facts, node?]
  cases tree.forest.node? handle with
  | none => rfl
  | some node =>
    change node.kind.own = _
    simp [Kind.own_eq]

/-- Counting classes and functions is adding up what each unit is counted as. -/
theorem sum_own (tree : Tree) (handles : List Handle) :
    (handles.map fun handle => (tree.forest.facts handle).kind.own).sum =
      ⟨handles.countP fun handle => (tree.node? handle).any fun node => node.kind = .classLike,
        handles.countP fun handle => (tree.node? handle).any fun node => node.kind = .function⟩ := by
  induction handles with
  | nil => rfl
  | cons handle handles inductionHypothesis =>
    rw [List.map_cons, List.sum_cons, inductionHypothesis, own_facts, List.countP_cons,
      List.countP_cons]
    ext <;> simp <;> omega

private theorem population_of_shaped (shaped : tree.forest.Shaped above shape)
    (distinct : shape.labels.Nodup) : tree.population shape.label =
      ((shape.children.flatMap Rose.labels).map fun handle =>
        (tree.forest.facts handle).kind.own).sum := by
  rw [population, countBelow, countBelow, below_of_shaped shaped distinct, sum_own]

private theorem contribution_of_shaped (shaped : tree.forest.Shaped above shape) :
    (tree.forest.facts shape.label).contribution =
      (tree.forest.facts shape.label).counts + (tree.forest.facts shape.label).kind.own := by
  apply Facts.contribution_eq_add_own
  obtain ⟨node, live, -⟩ := shaped.top
  rw [Forest.facts_of_node? live]
  obtain ⟨name, payload, parent, children⟩ := node
  cases payload with
  | leaf => exact fun _ => rfl
  | branch kind counts => exact fun leaf => nomatch leaf

/-- A node counts its population and the excess of every node in its subtree. -/
theorem counts_eq_population_add_excess (shaped : tree.forest.Shaped above shape)
    (distinct : shape.labels.Nodup) : (tree.forest.facts shape.label).counts =
      tree.population shape.label + (shape.labels.map tree.excess).sum := by
  rw [population_of_shaped shaped distinct]
  clear distinct
  induction shape using Rose.induct generalizing above with
  | node handle below inductionHypothesis =>
    have stored : (tree.forest.facts handle).counts = tree.excess handle +
        (below.map fun child => (tree.forest.facts child.label).contribution).sum := by
      have topExcess := excess_of_shaped shaped
      rw [Outline.excess, Rose.map_mk] at topExcess
      rw [topExcess]
      simp [Function.comp_def]
    have each : (below.map fun child => (tree.forest.facts child.label).contribution).sum =
        ((below.flatMap Rose.labels).map fun lower => (tree.forest.facts lower).kind.own).sum +
          ((below.flatMap Rose.labels).map tree.excess).sum := by
      have inShape : ∀ child ∈ below, tree.forest.Shaped (some handle) child :=
        fun child => shaped.child
      clear stored shaped
      induction below with
      | nil => rfl
      | cons child below later =>
        have rest := later (fun other member => inductionHypothesis other (by simp [member]))
          (fun other member => inShape other (by simp [member]))
        have childShaped := inShape child (by simp)
        have first := inductionHypothesis child (by simp) childShaped
        rw [List.map_cons, List.sum_cons, rest, contribution_of_shaped childShaped, first]
        obtain ⟨label, children⟩ := child
        simp only [List.flatMap_cons, Rose.labels_mk, List.map_cons, List.map_append,
          List.sum_append, List.sum_cons, List.cons_append]
        abel
    rw [stored, each, Rose.labels_mk, List.map_cons, List.sum_cons]
    abel

private theorem sum_excess_eq_zero {handles : List Handle}
    (balanced : ∀ handle ∈ handles, tree.excess handle = 0) : (handles.map tree.excess).sum = 0 := by
  rw [List.map_congr_left balanced]
  simp

/-- Where all nodes of a shape count their population, none has any excess: the sums of excess over
two nested subtrees differ by one node. -/
theorem excess_eq_zero_of_counts (shaped : tree.forest.Shaped above shape)
    (distinct : shape.labels.Nodup)
    (counted : ∀ handle ∈ shape.labels,
      (tree.forest.facts handle).counts = tree.population handle) :
    ∀ handle ∈ shape.labels, tree.excess handle = 0 := by
  induction shape using Rose.induct generalizing above with
  | node handle below inductionHypothesis =>
    have law := counts_eq_population_add_excess shaped distinct
    rw [counted handle (by simp), left_eq_add, Rose.labels_mk, List.map_cons, List.sum_cons] at law
    rw [Rose.labels_mk, List.nodup_cons] at distinct
    have inside : ∀ lower ∈ below.flatMap Rose.labels, tree.excess lower = 0 := by
      intro lower member
      obtain ⟨child, childMember, inChild⟩ := List.mem_flatMap.mp member
      apply inductionHypothesis child childMember (shaped.child childMember) _ _ lower inChild
      · exact (List.nodup_flatMap.mp distinct.2).1 child childMember
      · intro other otherMember
        apply counted
        rw [Rose.labels_mk]
        exact List.mem_cons_of_mem _ (List.mem_flatMap.mpr ⟨child, childMember, otherMember⟩)
    rw [sum_excess_eq_zero inside, add_zero] at law
    rw [Rose.labels_mk, List.forall_mem_cons]
    exact ⟨law, inside⟩

/-- Every branch counts the classes and functions that stand below it. -/
def Truthful (tree : Tree) : Prop :=
  ∀ handle node, tree.node? handle = some node → node.isLeaf = false →
    node.counts = tree.population handle

/-- A tree is truthful exactly when none of its nodes has any excess. -/
theorem Shows.truthful_iff (shows : tree.Shows shape outline) :
    tree.Truthful ↔ ∀ handle ∈ shape.labels, tree.excess handle = 0 := by
  constructor
  · intro truthful
    apply excess_eq_zero_of_counts shows.shaped shows.distinct
    intro handle member
    obtain ⟨node, live⟩ := shows.live_iff.mpr member
    rw [Forest.facts_of_node? live]
    cases leaf : node.isLeaf with
    | false => exact truthful handle node live leaf
    | true =>
      obtain ⟨subshape, _, rfl, shaped, distinct, -⟩ := shows.subshape live
      obtain ⟨top, topLive, -, -, terminal⟩ := shaped.top
      obtain rfl : node = top := Option.some.inj (live.symm.trans topLive)
      rw [population_of_shaped shaped distinct, terminal leaf]
      obtain ⟨name, payload, parent, children⟩ := node
      cases payload with
      | branch => cases leaf
      | leaf => rfl
  · intro balanced handle node live _
    obtain ⟨subshape, _, rfl, shaped, distinct, within⟩ := shows.subshape live
    have law := counts_eq_population_add_excess shaped distinct
    rw [sum_excess_eq_zero fun lower member => balanced lower (within lower member), add_zero,
      Forest.facts_of_node? live] at law
    exact law

end Tree

end CodeCensus
