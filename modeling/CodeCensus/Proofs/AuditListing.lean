import CodeCensus.Proofs.Population

/-!
# What an audit lists

An audit compares every branch with the stored counters of its own children, never with what stands
further below. It lists the branches that differ from that sum, children before their parents. It
lists none exactly when every branch counts its whole population: where a counter is wrong, some
branch at or below it has an excess.
-/

namespace CodeCensus

open Relation (TransGen)

/-- A node tells what it contributes unless it is a class that, with itself added, leaves the
word. -/
theorem Node.contribution_ends_iff {node : Node} :
    (∃ count, node.contribution = .ok count) ↔
      (node.kind = .classLike → node.facts.contribution.inRange) := by
  obtain ⟨name, payload, parent, children⟩ := node
  cases payload with
  | leaf => exact iff_of_true ⟨_, rfl⟩ fun impossible => nomatch impossible
  | branch kind counts =>
    cases kind with
    | classLike =>
      constructor
      · rintro ⟨count, told⟩ -
        exact (Count.checked_eq_ok.mp told).1
      · intro fits
        exact ⟨_, Count.checked_of_inRange (fits rfl)⟩
    | _ => exact iff_of_true ⟨_, rfl⟩ fun impossible => nomatch impossible

namespace Tree

variable {tree : Tree} {shape : Rose Handle} {outline : Outline} {handle : Handle} {node : Node}

/-- What the children of a node contribute together. -/
def expected (tree : Tree) (handle : Handle) : Count :=
  ((tree.children handle).map fun child => (tree.forest.facts child).contribution).sum

/-- The mismatch of a branch whose counters differ from what its children contribute. -/
def discrepancy? (tree : Tree) (handle : Handle) : Option Mismatch :=
  match tree.node? handle with
  | none => none
  | some node =>
    if node.isLeaf ∨ node.counts = tree.expected handle then none
    else some ⟨handle, node.counts, tree.expected handle⟩

/-- No counter leaves its word in the audit of a node: no class among its children when it is added
itself, and no sum of what the children contribute, from the first to any other. -/
structure ExpectationFits (tree : Tree) (node : Node) : Prop where
  classes : ∀ child ∈ node.children, (tree.forest.facts child).kind = .classLike →
    (tree.forest.facts child).contribution.inRange
  sums : ∀ number,
    ((node.children.take number).map fun child => (tree.forest.facts child).contribution).sum.inRange

/-- No counter leaves its word in the audit of any branch. -/
def AuditFits (tree : Tree) : Prop :=
  ∀ handle node, tree.node? handle = some node → node.isLeaf = false → tree.ExpectationFits node

private theorem expected_of_node (live : tree.node? handle = some node) : tree.expected handle =
    (node.children.map fun child => (tree.forest.facts child).contribution).sum := by
  simp [expected, children, live]

private theorem discrepancy?_eq_none (live : tree.node? handle = some node)
    (branch : node.isLeaf = false) :
    tree.discrepancy? handle = none ↔ tree.excess handle = 0 := by
  rw [excess_of_node live, ← expected_of_node live, Forest.facts_of_node? live, sub_eq_zero]
  simp [discrepancy?, live, branch, Node.facts]

/-! ### The audit of one node -/

/-- The nodes of the children of a live node. -/
theorem Shows.child_nodes (shows : tree.Shows shape outline) (live : tree.node? handle = some node) :
    ∃ nodes : List Node, node.children.filterMap tree.node? = nodes ∧
      nodes.map Node.facts = node.children.map tree.forest.facts := by
  obtain ⟨subshape, _, rfl, shaped, -⟩ := shows.subshape live
  obtain ⟨top, topLive, -, childLinks, -⟩ := shaped.top
  obtain rfl : node = top := Option.some.inj (live.symm.trans topLive)
  obtain ⟨nodes, listed, facts⟩ := nodes_of_live fun child member =>
    (shaped.child member).live (Rose.label_mem_labels child)
  rw [childLinks]
  exact ⟨nodes, listed, by rw [facts, List.map_map]; rfl⟩

/-- What is expected of a live node can be told exactly when no counter leaves its word. -/
theorem Shows.expectedCount_ends_iff (shows : tree.Shows shape outline)
    (live : tree.node? handle = some node) :
    (∃ count, tree.expectedCount node.children = .ok count) ↔ tree.ExpectationFits node := by
  obtain ⟨nodes, listed, facts⟩ := shows.child_nodes live
  have contributed : (nodes.map Node.facts).map Facts.contribution =
      node.children.map fun child => (tree.forest.facts child).contribution := by
    rw [facts, List.map_map]
    rfl
  have each : (∃ contributions, nodes.mapM Node.contribution = .ok contributions) ↔
      ∀ child ∈ node.children, (tree.forest.facts child).kind = .classLike →
        (tree.forest.facts child).contribution.inRange := by
    have moved : (∀ shown ∈ nodes.map Node.facts, shown.kind = .classLike →
        shown.contribution.inRange) ↔ ∀ shown ∈ node.children.map tree.forest.facts,
          shown.kind = .classLike → shown.contribution.inRange := by rw [facts]
    rw [Fault.mapM_ends_iff]
    simpa [Node.contribution_ends_iff, Node.facts] using moved
  rw [expectedCount, listed]
  constructor
  · rintro ⟨count, told⟩
    obtain ⟨contributions, first, totalled⟩ := Fault.bind_eq_ok.mp told
    refine ⟨each.mp ⟨_, first⟩, fun number => ?_⟩
    have fits := Count.total_ends_iff.mp ⟨count, totalled⟩ number
    rwa [contributions_eq_ok first, contributed, ← List.map_take] at fits
  · rintro ⟨classes, sums⟩
    obtain ⟨contributions, first⟩ := each.mpr classes
    have fits : ∀ number, (contributions.take number).sum.inRange := by
      intro number
      rw [contributions_eq_ok first, contributed, ← List.map_take]
      exact sums number
    obtain ⟨count, totalled⟩ := Count.total_ends_iff.mpr fits
    exact ⟨count, Fault.bind_eq_ok.mpr ⟨contributions, first, totalled⟩⟩

/-- What the audit says of a live node, if it can tell, is its exact discrepancy. -/
theorem Shows.mismatch?_eq_ok {result : Option Mismatch} (shows : tree.Shows shape outline)
    (live : tree.node? handle = some node) (told : tree.mismatch? handle = .ok result) :
    result = tree.discrepancy? handle := by
  simp only [mismatch?, live] at told
  simp only [discrepancy?, live]
  cases leaf : node.isLeaf with
  | true =>
    rw [leaf] at told
    simpa using (Except.ok.inj told).symm
  | false =>
    simp only [leaf, Bool.false_eq_true, if_false] at told
    obtain ⟨count, counted, same⟩ := Fault.bind_eq_ok.mp told
    obtain ⟨nodes, listed, facts⟩ := shows.child_nodes live
    have agree : count = tree.expected handle := by
      rw [expectedCount_eq_ok listed counted, expected_of_node live, facts, List.map_map]
      rfl
    obtain rfl := Except.ok.inj same
    simp [agree, eq_comm]

/-- The audit can tell of a live node unless it is a branch where some counter leaves its word. -/
theorem Shows.mismatch?_ends_iff (shows : tree.Shows shape outline)
    (live : tree.node? handle = some node) : (∃ result, tree.mismatch? handle = .ok result) ↔
      (node.isLeaf = false → tree.ExpectationFits node) := by
  simp only [mismatch?, live]
  cases leaf : node.isLeaf with
  | true => simp
  | false =>
    simp only [Bool.false_eq_true, if_false, forall_const]
    rw [← shows.expectedCount_ends_iff live]
    constructor
    · rintro ⟨result, told⟩
      obtain ⟨count, counted, -⟩ := Fault.bind_eq_ok.mp told
      exact ⟨count, counted⟩
    · rintro ⟨count, counted⟩
      exact ⟨_, Fault.bind_eq_ok.mpr ⟨count, counted, rfl⟩⟩

/-! ### The audit of a tree -/

private theorem Shows.postorder (shows : tree.Shows shape outline) :
    tree.forest.postorder tree.root = shape.labelsUp := by
  rw [← shows.top, shows.shaped.postorder shows.distinct]

/-- An audit ends exactly when no counter leaves its word in it. -/
theorem Shows.recount_ends_iff (shows : tree.Shows shape outline) :
    (∃ found, tree.recount = .ok found) ↔ tree.AuditFits := by
  have each : (∃ found, tree.recount = .ok found) ↔
      ∀ handle ∈ shape.labelsUp, ∃ result, tree.mismatch? handle = .ok result := by
    rw [recount, shows.postorder, ← Fault.mapM_ends_iff]
    constructor
    · rintro ⟨found, told⟩
      obtain ⟨results, listed, -⟩ := Fault.bind_eq_ok.mp told
      exact ⟨results, listed⟩
    · rintro ⟨results, listed⟩
      exact ⟨_, Fault.bind_eq_ok.mpr ⟨results, listed, rfl⟩⟩
  rw [each]
  constructor
  · intro ends handle node live
    exact (shows.mismatch?_ends_iff live).mp
      (ends handle (Rose.mem_labelsUp.mpr (shows.live_iff.mp ⟨node, live⟩)))
  · intro fits handle member
    obtain ⟨node, live⟩ := shows.live_iff.mpr (Rose.mem_labelsUp.mp member)
    exact (shows.mismatch?_ends_iff live).mpr (fits handle node live)

/-- An audit that ends lists the discrepancies of all nodes, children before their parents. -/
theorem Shows.recount_eq_ok {found : List Mismatch} (shows : tree.Shows shape outline)
    (told : tree.recount = .ok found) : found = shape.labelsUp.filterMap tree.discrepancy? := by
  rw [recount, shows.postorder] at told
  obtain ⟨results, listed, same⟩ := Fault.bind_eq_ok.mp told
  obtain rfl : results.filterMap id = found := Except.ok.inj same
  have discrepancies : results = shape.labelsUp.map tree.discrepancy? := by
    apply Fault.mapM_eq_map listed
    intro handle member result here
    obtain ⟨node, live⟩ := shows.live_iff.mpr (Rose.mem_labelsUp.mp member)
    exact shows.mismatch?_eq_ok live here
  rw [discrepancies, List.filterMap_map]
  rfl

/-- There is nothing to list exactly when no node has any excess. -/
theorem Shows.discrepancies_eq_nil (shows : tree.Shows shape outline) :
    shape.labelsUp.filterMap tree.discrepancy? = [] ↔ tree.Truthful := by
  rw [shows.truthful_iff, List.filterMap_eq_nil_iff]
  have each : ∀ handle ∈ shape.labels,
      tree.discrepancy? handle = none ↔ tree.excess handle = 0 := by
    intro handle member
    obtain ⟨node, live⟩ := shows.live_iff.mpr member
    cases leaf : node.isLeaf with
    | false => exact discrepancy?_eq_none live leaf
    | true =>
      have terminal := shows.formed.wellLinked.terminal handle node live leaf
      exact iff_of_true (by simp [discrepancy?, live, leaf]) (excess_of_leaf live leaf terminal)
  constructor
  · intro nothing handle member
    exact (each handle member).mp (nothing handle (Rose.mem_labelsUp.mpr member))
  · intro balanced handle member
    rw [Rose.mem_labelsUp] at member
    exact (each handle member).mpr (balanced handle member)

/-- An audit ends exactly when no counter leaves its word in it. It lists nothing exactly when every
branch counts the classes and functions that child lists lead to from it; else it lists, in
post-order and each once, the branches whose counters differ from what their own children
contribute, with both. -/
theorem audit_decides_population (tree : Tree) (reachable : tree.Reachable) :
    ((∃ found, tree.recount = .ok found) ↔ tree.AuditFits) ∧
    (∀ handle node, tree.node? handle = some node → (tree.below handle).Nodup ∧
      ∀ lower, lower ∈ tree.below handle ↔ TransGen tree.forest.IsChild handle lower) ∧
    ∃ shape : Rose Handle, shape.label = tree.root ∧ tree.forest.Shaped none shape ∧
      shape.labelsUp.Nodup ∧ (∀ handle, handle ∈ shape.labelsUp ↔ (tree.node? handle).isSome) ∧
      ∀ found, tree.recount = .ok found →
        (found = [] ↔ tree.Truthful) ∧ found = shape.labelsUp.filterMap tree.discrepancy? := by
  obtain ⟨shape, outline, shows⟩ := reachable.shows
  refine ⟨shows.recount_ends_iff, fun _ _ => shows.mem_below, shape, shows.top, shows.shaped,
    ?_, ?_, ?_⟩
  · exact shape.labelsUp_perm.nodup_iff.mpr shows.distinct
  · intro handle
    rw [Option.isSome_iff_exists, shows.live_iff, Rose.mem_labelsUp]
  · intro found told
    have listed := shows.recount_eq_ok told
    exact ⟨listed ▸ shows.discrepancies_eq_nil, listed⟩

/-- A project that counts right, above a file that does not: both differ from their own children,
and the file comes first. -/
theorem wrong_file_below_right_project :
    let file : Entry := ⟨.sourceFile, "A.java", ⟨1, 2⟩, [.ofClass "A" [.function "f"]]⟩
    let tree := (ofEntry ⟨.module, "p", ⟨1, 1⟩, [file]⟩).tree
    tree.Reachable ∧ tree.AuditFits ∧ tree.population 0 = ⟨1, 1⟩ ∧ tree.population 1 = ⟨1, 1⟩ ∧
      tree.recount = .ok [⟨1, ⟨1, 2⟩, ⟨1, 1⟩⟩, ⟨0, ⟨1, 1⟩, ⟨1, 2⟩⟩] ∧ ¬tree.Truthful := by
  intro file tree
  have reachable : tree.Reachable := ⟨_, .refl⟩
  have told : tree.recount = .ok [⟨1, ⟨1, 2⟩, ⟨1, 1⟩⟩, ⟨0, ⟨1, 1⟩, ⟨1, 2⟩⟩] := by decide
  obtain ⟨ends, -, shape, -, -, -, -, lists⟩ := audit_decides_population tree reachable
  refine ⟨reachable, ends.mp ⟨_, told⟩, by decide, by decide, told, fun truthful => ?_⟩
  cases (lists _ told).1.mpr truthful

end Tree

end CodeCensus
