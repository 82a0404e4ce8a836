import CodeCensus.Proofs.Count
import CodeCensus.Proofs.Materialization

/-!
# Propagating counters

Raising a node adds a difference to it and to everything above it. On a shape that is the way from
the top down to the node, each node once, so the raised tree shows the old facts off the way and the
raised facts on it. It faults exactly when a counter on the way leaves its word.
-/

namespace CodeCensus

/-- The facts of a unit whose counters grew by a difference. -/
def Facts.raise (delta : Count) (facts : Facts) : Facts :=
  { facts with counts := facts.counts + delta }

@[simp] theorem Facts.raise_zero : Facts.raise 0 = id := by
  funext facts
  simp [Facts.raise]

@[simp] theorem Facts.raise_kind (delta : Count) (facts : Facts) :
    (facts.raise delta).kind = facts.kind := rfl

@[simp] theorem Facts.raise_name (delta : Count) (facts : Facts) :
    (facts.raise delta).name = facts.name := rfl

@[simp] theorem Facts.raise_counts (delta : Count) (facts : Facts) :
    (facts.raise delta).counts = facts.counts + delta := rfl

/-- A branch whose counters grow keeps its links; a counter that leaves its word is a fault. -/
theorem Node.adjust_branch {node : Node} (branch : node.isLeaf = false) (delta : Count) :
    ∃ grown : Node, node.adjust delta = (if (node.counts + delta).inRange then .ok grown
        else .error .counterOverflow) ∧
      grown.links = node.links ∧ grown.facts = node.facts.raise delta := by
  obtain ⟨name, payload, parent, children⟩ := node
  cases payload with
  | leaf => cases branch
  | branch kind counts =>
    refine ⟨⟨name, .branch kind (counts + delta), parent, children⟩, ?_, rfl, rfl⟩
    cases fits : (counts + delta).inRange <;>
      simp [Node.adjust, Node.counts, Count.plus, Count.checked, fits]

namespace Rose

variable {α : Type} {tree subtree : Rose α} {position : Position}

/-- The way to a position lists labels of the tree in order. -/
theorem spine_sublist : (tree.spine position).Sublist tree.labels := by
  induction position generalizing tree with
  | nil =>
    obtain ⟨top, children⟩ := tree
    rw [labels_mk]
    exact (List.nil_sublist _).cons_cons top
  | cons index rest inductionHypothesis =>
    obtain ⟨top, children⟩ := tree
    rw [labels_mk]
    refine List.Sublist.cons_cons top ?_
    cases found : children[index]? with
    | none => exact List.nil_sublist _
    | some child =>
      exact inductionHypothesis.trans
        (List.sublist_flatten_of_mem (List.mem_map_of_mem (List.mem_of_getElem? found)))

end Rose

namespace Forest

variable {forest : Forest} {shape subshape : Rose Handle} {position : Position}

/-- Everything on the way down to a branch is a live branch. -/
theorem Shaped.branch_of_mem_spine {parent : Option Handle} {node : Node}
    (shaped : forest.Shaped parent shape) (here : shape.at? position = some subshape)
    (live : forest.node? subshape.label = some node) (branch : node.isLeaf = false)
    {handle : Handle} (member : handle ∈ shape.spine position) :
    ∃ onWay, forest.node? handle = some onWay ∧ onWay.isLeaf = false := by
  induction position generalizing shape parent with
  | nil =>
    obtain rfl : shape = subshape := Option.some.inj here
    obtain rfl : handle = shape.label := List.mem_singleton.mp member
    exact ⟨node, live, branch⟩
  | cons index rest inductionHypothesis =>
    obtain ⟨child, found, below⟩ := Option.bind_eq_some_iff.mp here
    simp only [Rose.spine, found, List.mem_cons] at member
    rcases member with rfl | onward
    · obtain ⟨top, topLive, -, -, terminal⟩ := shaped.top
      refine ⟨top, topLive, Bool.eq_false_iff.mpr fun leaf => ?_⟩
      simp [terminal leaf] at found
    · exact inductionHypothesis (shaped.child (List.mem_of_getElem? found)) below onward

end Forest

namespace Tree

open Forest (Relabelled)

variable {tree before middle after : Tree} {delta : Count}

/-- The tree after some nodes were raised, and no counter left its word. -/
structure Raised (before after : Tree) (delta : Count) (handles : List Handle) : Prop where
  relabelled : Relabelled before.forest after.forest
  facts : ∀ handle, after.forest.facts handle = if handle ∈ handles then
    (before.forest.facts handle).raise delta else before.forest.facts handle
  words : ∀ handle, (before.forest.facts handle).counts.inRange →
    (after.forest.facts handle).counts.inRange
  root : after.root = before.root

private theorem Raised.refl : Raised before before delta [] :=
  ⟨.refl, fun handle => by simp, fun _ => id, rfl⟩

/-- Adjusting a branch raises it, or faults when a counter leaves its word. -/
theorem adjust_raised (delta : Count) {handle : Handle} {node : Node}
    (live : tree.forest.node? handle = some node) (branch : node.isLeaf = false) :
    ∃ raised, (tree.adjust delta handle =
        if ((tree.forest.facts handle).counts + delta).inRange then .ok raised
        else .error .counterOverflow) ∧
      (((tree.forest.facts handle).counts + delta).inRange →
        Raised tree raised delta [handle]) := by
  obtain ⟨grown, adjusted, links, facts⟩ := node.adjust_branch branch delta
  have lookup : ∀ other, (tree.forest.set handle grown).node? other =
      if other = handle then some grown else tree.forest.node? other :=
    fun other => Forest.node?_set grown (Forest.lt_fresh_of_node? live)
  have shown : ∀ other, (tree.forest.set handle grown).facts other = if other ∈ [handle] then
      (tree.forest.facts other).raise delta else tree.forest.facts other := by
    intro other
    have found := lookup other
    by_cases here : other = handle
    · subst here
      rw [if_pos rfl] at found
      rw [if_pos (List.mem_singleton_self other), Forest.facts_of_node? live, ← facts]
      exact Forest.facts_of_node? found
    · rw [if_neg here] at found
      rw [if_neg (mt List.mem_singleton.mp here)]
      exact Forest.facts_congr found
  refine ⟨{ tree with forest := tree.forest.set handle grown }.notify (.changed handle), ?_,
    fun fits => ⟨Forest.relabelled_set live links, shown, fun other inRange => ?_, rfl⟩⟩
  · rw [Forest.facts_of_node? live, adjust]
    simp only [node?, live, adjusted]
    change _ = if (node.counts + delta).inRange then _ else _
    split <;> rfl
  · change ((tree.forest.set handle grown).facts other).counts.inRange
    rw [shown other]
    by_cases here : other = handle
    · subst here
      rwa [if_pos (List.mem_singleton_self other)]
    · rwa [if_neg (mt List.mem_singleton.mp here)]

/-- Branches one after the other are all raised, unless a counter leaves its word. -/
theorem foldlM_adjust (delta : Count) {handles : List Handle} (distinct : handles.Nodup)
    (branches : ∀ handle ∈ handles, ∃ node, tree.forest.node? handle = some node ∧
      node.isLeaf = false) :
    (∀ raised, handles.foldlM (adjust delta) tree = .ok raised →
      Raised tree raised delta handles) ∧
    ((∀ handle ∈ handles, ((tree.forest.facts handle).counts + delta).inRange) →
      ∃ raised, handles.foldlM (adjust delta) tree = .ok raised) := by
  induction handles generalizing tree with
  | nil =>
    refine ⟨fun raised done => ?_, fun _ => ⟨tree, rfl⟩⟩
    obtain rfl : tree = raised := Except.ok.inj done
    exact .refl
  | cons handle handles inductionHypothesis =>
    rw [List.nodup_cons] at distinct
    obtain ⟨node, live, branch⟩ := branches handle (by simp)
    obtain ⟨middle, adjusted, raisedFirst⟩ := adjust_raised delta live branch
    rw [List.foldlM_cons, adjusted]
    cases fits : ((tree.forest.facts handle).counts + delta).inRange with
    | false =>
      refine ⟨fun raised done => by simp [bind, Except.bind] at done, fun allFit => ?_⟩
      rw [allFit handle (by simp)] at fits
      cases fits
    | true =>
      have firstly := raisedFirst fits
      have stillBranches : ∀ other ∈ handles, ∃ node, middle.forest.node? other = some node ∧
          node.isLeaf = false := by
        intro other member
        obtain ⟨node, live, branch⟩ := branches other (by simp [member])
        obtain ⟨later, laterLive, same⟩ := firstly.relabelled.node? live
        simp only [Node.links, Prod.mk.injEq] at same
        exact ⟨later, laterLive, by rwa [Node.isLeaf, same.2.2]⟩
      have untouched : ∀ other ∈ handles,
          middle.forest.facts other = tree.forest.facts other := by
        intro other member
        rw [firstly.facts, if_neg]
        rintro same
        obtain rfl : other = handle := List.mem_singleton.mp same
        exact distinct.1 member
      obtain ⟨onward, total⟩ := inductionHypothesis distinct.2 stillBranches
      rw [if_pos rfl]
      refine ⟨fun raised done => ?_, fun allFit => total fun other member => ?_⟩
      · have secondly := onward raised done
        refine ⟨firstly.relabelled.trans secondly.relabelled, fun other => ?_,
          fun other => secondly.words other ∘ firstly.words other,
          secondly.root.trans firstly.root⟩
        rw [secondly.facts]
        by_cases later : other ∈ handles
        · rw [if_pos later, untouched other later, if_pos (List.mem_cons_of_mem _ later)]
        · rw [if_neg later, firstly.facts]
          simp [later]
      · rw [untouched other member]
        exact allFit other (by simp [member])

/-- Raising a branch at a position raises the way down to it, unless a counter there leaves its
word. -/
theorem raise_spine (delta : Count) {shape subshape : Rose Handle} {position : Position} {node : Node}
    (shaped : tree.forest.Shaped none shape) (distinct : shape.labels.Nodup)
    (here : shape.at? position = some subshape)
    (live : tree.forest.node? subshape.label = some node) (branch : node.isLeaf = false) :
    (∀ raised, tree.raise subshape.label delta = .ok raised →
      Raised tree raised delta (shape.spine position)) ∧
    ((∀ handle ∈ shape.spine position, ((tree.forest.facts handle).counts + delta).inRange) →
      ∃ raised, tree.raise subshape.label delta = .ok raised) := by
  by_cases zero : delta = 0
  · subst zero
    have nothing : tree.raise subshape.label 0 = .ok tree := by simp [raise]
    rw [nothing]
    refine ⟨fun raised done => ?_, fun _ => ⟨tree, rfl⟩⟩
    obtain rfl : tree = raised := Except.ok.inj done
    exact ⟨.refl, fun handle => by simp, fun _ => id, rfl⟩
  · have upward : tree.raise subshape.label delta =
        (shape.spine position).reverse.foldlM (adjust delta) tree := by
      simp [raise, zero, shaped.lineage here]
    have spineDistinct : (shape.spine position).reverse.Nodup :=
      List.nodup_reverse.mpr (distinct.sublist Rose.spine_sublist)
    obtain ⟨onward, total⟩ := foldlM_adjust delta spineDistinct fun handle member =>
      shaped.branch_of_mem_spine here live branch (List.mem_reverse.mp member)
    rw [upward]
    refine ⟨fun raised done => ?_, fun fits => total fun handle member =>
      fits handle (List.mem_reverse.mp member)⟩
    obtain ⟨relabelled, facts, words, root⟩ := onward raised done
    exact ⟨relabelled, fun handle => by rw [facts]; simp only [List.mem_reverse], words, root⟩

end Tree

end CodeCensus
