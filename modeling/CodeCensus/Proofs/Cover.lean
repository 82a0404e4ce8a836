import CodeCensus.Proofs.Surplus

/-!
# Counters cover their children

An entry may put a class or a function where nothing counts it, and then a unit counts less than
what its children contribute. It never counts less than what they count, as long as every entry
counts what is nested in it: a mutation that exchanges children moves the counters of their unit by
the difference of the counters of what came and what went. `Outline.Roomy` is that invariant. Since
counters at the bottom are zero, no counter is ever negative.

A root is a module, whatever the kind of its entry. So an entry of a function, which counts nothing,
must not be taken for a root when what is nested in it counts something.
-/

namespace CodeCensus

namespace Entry

/-- Functions count nothing, and every other entry counts what its nested entries contribute. -/
inductive Consistent : Entry → Prop
  | function {name : String} {nested : List Entry} : Consistent ⟨.function, name, 0, nested⟩
  | branch {kind : BranchKind} {name : String} {counts : Count} {nested : List Entry}
      (sum : counts = (nested.map contribution).sum)
      (each : ∀ inner ∈ nested, Consistent inner) : Consistent ⟨.branch kind, name, counts, nested⟩

variable {entry : Entry}

private theorem Consistent.balanced (consistent : entry.Consistent) :
    (Outline.ofEntry entry).Balanced := by
  induction consistent with
  | function =>
    rw [Outline.ofEntry_function]
    exact .function _
  | branch sum each inductionHypothesis =>
    rw [Outline.ofEntry_branch, Outline.balanced_branch, List.map_map, List.forall_mem_map]
    refine ⟨?_, inductionHypothesis⟩
    rw [sum]
    congr 1
    exact List.map_congr_left fun inner _ => (Outline.ofEntry_contribution inner).symm

/-- The unit of a consistent entry counts what the entry says. -/
theorem Consistent.counts (consistent : entry.Consistent) :
    (Outline.ofEntry entry).label.counts = entry.counts := by
  refine Outline.ofEntry_counts fun isFunction => ?_
  cases consistent with
  | function => rfl
  | branch => cases isFunction

end Entry

namespace Outline

/-- Every unit counts at least what the units right inside it count. -/
inductive Roomy : Outline → Prop
  | unit {label : Facts} {children : List Outline}
      (covers : (children.map fun child => child.label.counts).sum ≤ label.counts)
      (each : ∀ child ∈ children, Roomy child) : Roomy ⟨label, children⟩

variable {outline unit : Outline} {position : Position} {index : Nat} {mutation : Mutation}

private theorem roomy_mk {label : Facts} {children : List Outline} : Roomy ⟨label, children⟩ ↔
    (children.map fun child => child.label.counts).sum ≤ label.counts ∧
      ∀ child ∈ children, Roomy child := by
  constructor
  · intro roomy
    cases roomy with
    | unit covers each => exact ⟨covers, each⟩
  · rintro ⟨covers, each⟩
    exact .unit covers each

/-- Every unit of a roomy outline is roomy. -/
theorem Roomy.at? (roomy : outline.Roomy) (here : outline.at? position = some unit) :
    unit.Roomy := by
  induction position generalizing outline with
  | nil =>
    obtain rfl : outline = unit := Option.some.inj here
    exact roomy
  | cons index rest inductionHypothesis =>
    obtain ⟨child, found, below⟩ := Option.bind_eq_some_iff.mp here
    cases roomy with
    | unit covers each => exact inductionHypothesis (each child (List.mem_of_getElem? found)) below

/-- Nothing in a roomy outline counts less than nothing. -/
theorem Roomy.nonneg (roomy : outline.Roomy) : 0 ≤ outline.label.counts := by
  induction roomy with
  | unit covers each inductionHypothesis =>
    refine le_trans (List.sum_nonneg fun count member => ?_) covers
    obtain ⟨child, childMember, rfl⟩ := List.mem_map.mp member
    exact inductionHypothesis child childMember

/-- What counts all that its units contribute counts all that they count. -/
theorem Balanced.roomy (balanced : outline.Balanced) : outline.Roomy := by
  induction balanced with
  | function => exact .unit (le_refl _) (by simp)
  | branch sum each inductionHypothesis =>
    refine .unit ?_ inductionHypothesis
    rw [sum]
    exact List.sum_le_sum fun child member => Facts.counts_le_contribution (each child member).bare

/-! ### Changes -/

private theorem counts_amend {delta : Count} {change : Outline → Outline}
    (here : outline.at? position = some unit)
    (grows : (change unit).label.counts = unit.label.counts + delta) :
    (outline.amend (Facts.raise delta) change position).label.counts =
      outline.label.counts + delta := by
  cases position with
  | nil =>
    obtain rfl : outline = unit := Option.some.inj here
    exact grows
  | cons index rest =>
    cases outline
    rfl

/-- A change that leaves one unit roomy leaves the outline roomy, since everything above the unit
grows as the unit does. -/
theorem Roomy.amend {delta : Count} {change : Outline → Outline} (roomy : outline.Roomy)
    (here : outline.at? position = some unit) (changed : (change unit).Roomy)
    (grows : (change unit).label.counts = unit.label.counts + delta) :
    Roomy (outline.amend (Facts.raise delta) change position) := by
  induction position generalizing outline with
  | nil =>
    obtain rfl : outline = unit := Option.some.inj here
    exact changed
  | cons index rest inductionHypothesis =>
    obtain ⟨child, found, below⟩ := Option.bind_eq_some_iff.mp here
    obtain ⟨label, children⟩ := outline
    obtain ⟨before, after, rfl, rfl⟩ := Rose.children_split found
    rw [roomy_mk] at roomy
    obtain ⟨covers, each⟩ := roomy
    rw [Rose.amend, Rose.modify_split, roomy_mk]
    refine ⟨?_, fun inner member => ?_⟩
    · have grown := add_le_add_left covers delta
      simp only [List.map_append, List.map_cons, List.sum_append, List.sum_cons] at grown ⊢
      rw [counts_amend below grows]
      refine le_trans (le_of_eq ?_) grown
      abel
    · rcases List.mem_append.mp member with early | late
      · exact each inner (List.mem_append_left _ early)
      · rcases List.mem_cons.mp late with rfl | later
        · exact inductionHypothesis (each child (by simp)) below
        · exact each inner (by simp [later])

/-- When units take the place of a child, and the counters move by the difference, there is room for
them. -/
theorem Roomy.replace {parent : Outline} (roomy : outline.Roomy) (extra : List Outline)
    (change : List Outline → List Outline) (above : outline.at? position = some parent)
    (below : parent.children[index]? = some unit)
    (changed : change parent.children = parent.children.eraseIdx index ++ extra)
    (each : ∀ child ∈ extra, Roomy child) :
    Roomy (outline.exchange ((extra.map fun child => child.label.counts).sum - unit.label.counts)
      change position) := by
  refine roomy.amend above ?_ rfl
  have parentRoomy := roomy.at? above
  obtain ⟨label, children⟩ := parent
  rw [roomy_mk] at parentRoomy ⊢
  obtain ⟨covers, inside⟩ := parentRoomy
  obtain ⟨bound, rfl⟩ := List.getElem?_eq_some_iff.mp below
  rw [changed]
  refine ⟨?_, fun child member => ?_⟩
  · have whole := List.CommMonoid.add_sum_eraseIdx
      (l := children.map fun child => child.label.counts) (i := index) (by simpa using bound)
    rw [List.getElem_map, List.eraseIdx_map] at whole
    rw [← whole] at covers
    rw [List.map_append, List.sum_append, Facts.raise_counts]
    calc ((children.eraseIdx index).map fun child => child.label.counts).sum +
          (extra.map fun child => child.label.counts).sum
        = children[index].label.counts +
            ((children.eraseIdx index).map fun child => child.label.counts).sum +
            ((extra.map fun child => child.label.counts).sum - children[index].label.counts) := by
          abel
      _ ≤ label.counts +
            ((extra.map fun child => child.label.counts).sum - children[index].label.counts) :=
          add_le_add_left covers _
  · rcases List.mem_append.mp member with old | new
    · exact inside child (List.mem_of_mem_eraseIdx old)
    · exact each child new

/-! ### One mutation -/

private theorem Roomy.create {entry : Entry} (roomy : outline.Roomy) (consistent : entry.Consistent)
    (scope : String) : ((outline.create scope entry).toOption.getD outline).Roomy := by
  rw [Outline.create]
  split
  · exact roomy
  · next position parent found =>
    have here := Rose.at?_of_locate? found
    split
    · exact roomy
    · refine roomy.amend here ?_ rfl
      have parentRoomy := roomy.at? here
      obtain ⟨label, children⟩ := parent
      rw [roomy_mk] at parentRoomy ⊢
      obtain ⟨covers, each⟩ := parentRoomy
      refine ⟨?_, fun child member => ?_⟩
      · rw [List.map_append, List.sum_append, List.map_singleton, List.sum_singleton,
          consistent.counts]
        exact add_le_add_left covers entry.counts
      · rcases List.mem_append.mp member with old | new
        · exact each child old
        · rw [List.mem_singleton.mp new]
          exact consistent.balanced.roomy

private theorem Roomy.update {entry : Entry} (roomy : outline.Roomy) (consistent : entry.Consistent)
    (scope : String) : ((outline.update scope entry).toOption.getD outline).Roomy := by
  rw [Outline.update]
  split
  · exact roomy
  · next position unit found =>
    split
    · exact roomy
    · next index last =>
      obtain ⟨parent, above, below⟩ := parent_of_at? (at?_of_findWithin? found) last
      have appended : (parent.children ++ [ofEntry entry]).eraseIdx index =
          parent.children.eraseIdx index ++ [ofEntry entry] :=
        List.eraseIdx_append_of_lt_length (List.getElem?_eq_some_iff.mp below).1 _
      have replaced := roomy.replace [ofEntry entry]
        (fun siblings => (siblings ++ [ofEntry entry]).eraseIdx index) above below appended
        (List.forall_mem_singleton.mpr consistent.balanced.roomy)
      rwa [List.map_singleton, List.sum_singleton, consistent.counts] at replaced

private theorem Roomy.rename (roomy : outline.Roomy) (scope previous name : String) :
    (outline.rename scope previous name).Roomy := by
  rw [Outline.rename]
  split
  · exact roomy
  · next position unit found =>
    have here := at?_of_findWithin? found
    rw [← Facts.raise_zero]
    refine roomy.amend here ?_ (add_zero _).symm
    have unitRoomy := roomy.at? here
    obtain ⟨label, children⟩ := unit
    rw [roomy_mk] at unitRoomy
    exact roomy_mk.mpr unitRoomy

private theorem Roomy.delete (roomy : outline.Roomy) (scope name : String) :
    ((outline.delete scope name).toOption.getD outline).Roomy := by
  rw [Outline.delete]
  split
  · exact roomy
  · next position unit found =>
    split
    · exact roomy
    · next index last =>
      obtain ⟨parent, above, below⟩ := parent_of_at? (at?_of_findWithin? found) last
      have replaced := roomy.replace [] (·.eraseIdx index) above below (List.append_nil _).symm
        (List.forall_mem_nil _)
      rwa [List.map_nil, List.sum_nil, zero_sub] at replaced

/-- A mutation that brings consistent entries at most leaves an outline roomy. -/
theorem Roomy.mutate (roomy : outline.Roomy)
    (consistent : ∀ entry, mutation.entry? = some entry → entry.Consistent) :
    ((outline.mutate mutation).toOption.getD outline).Roomy := by
  cases mutation with
  | create scope entry => exact roomy.create (consistent entry rfl) scope
  | update scope entry => exact roomy.update (consistent entry rfl) scope
  | rename scope previous name => exact roomy.rename scope previous name
  | delete scope name => exact roomy.delete scope name

end Outline

/-- A root has room for what is nested in its entry, unless the entry is one of a function with
something in it that counts. -/
theorem Entry.Consistent.roomy_root {base : Entry} (consistent : base.Consistent)
    (holds : base.kind = .function → (∀ inner ∈ base.nested, inner.Consistent) ∧
      (base.nested.map Entry.counts).sum ≤ base.counts) :
    (Outline.ofEntry (base.withKind .module)).Roomy := by
  rw [withKind, Outline.ofEntry_branch, Outline.roomy_mk, List.forall_mem_map, List.map_map]
  cases consistent with
  | function =>
    obtain ⟨each, less⟩ := holds rfl
    refine ⟨?_, fun inner member => (each inner member).balanced.roomy⟩
    refine le_of_eq_of_le (congrArg List.sum ?_) less
    exact List.map_congr_left fun inner member => (each inner member).counts
  | branch sum each =>
    refine ⟨?_, fun inner member => (each inner member).balanced.roomy⟩
    dsimp only
    rw [sum]
    refine List.sum_le_sum fun inner member => ?_
    rw [← Outline.ofEntry_contribution]
    exact Facts.counts_le_contribution (each inner member).balanced.bare

namespace Tree

variable {tree first : Tree} {shape : Rose Handle} {outline : Outline} {handle : Handle}
  {node : Node}

/-- The later trees that observers and mutations bringing consistent entries can make of a tree. -/
inductive ConsistentlyEvolves (first : Tree) : Tree → Prop
  | refl : ConsistentlyEvolves first first
  | mutated {tree : Tree} {mutation : Mutation} {outcome : Outcome}
      (earlier : ConsistentlyEvolves first tree)
      (consistent : ∀ entry, mutation.entry? = some entry → entry.Consistent)
      (done : tree.mutate mutation = .ok outcome) : ConsistentlyEvolves first outcome.tree
  | observed {tree : Tree} (earlier : ConsistentlyEvolves first tree) (observers : Observers) :
      ConsistentlyEvolves first { tree with observers }

private theorem ConsistentlyEvolves.roomy (evolves : first.ConsistentlyEvolves tree)
    (shows : first.Shows shape outline) (roomy : outline.Roomy) :
    ∃ shape outline, tree.Shows shape outline ∧ outline.Roomy := by
  induction evolves with
  | refl => exact ⟨shape, outline, shows, roomy⟩
  | mutated _ consistent done inductionHypothesis =>
    obtain ⟨_, _, treeShows, treeRoomy⟩ := inductionHypothesis
    obtain ⟨-, ⟨_, laterShows⟩, -⟩ := (treeShows.mutate _).1 _ done
    exact ⟨_, _, laterShows, treeRoomy.mutate consistent⟩
  | observed _ observers inductionHypothesis =>
    obtain ⟨_, _, treeShows, treeRoomy⟩ := inductionHypothesis
    exact ⟨_, _, treeShows.observed observers, treeRoomy⟩

/-- A node of a tree with a roomy outline covers its children. -/
theorem Shows.covers (shows : tree.Shows shape outline) (roomy : outline.Roomy)
    (live : tree.node? handle = some node) :
    (node.children.map fun child => (tree.forest.facts child).counts).sum ≤ node.counts ∧
      0 ≤ node.counts := by
  obtain ⟨position, subshape, here, rfl⟩ := Rose.mem_labels.mp (shows.live_iff.mp ⟨node, live⟩)
  obtain ⟨_, subshaped⟩ := shows.shaped.at? here
  obtain ⟨top, topLive, -, childLinks, -⟩ := subshaped.top
  obtain rfl : top = node := Option.some.inj (topLive.symm.trans live)
  have unitRoomy := roomy.at? (shows.at? here)
  have nonneg := unitRoomy.nonneg
  obtain ⟨handle, below⟩ := subshape
  rw [Rose.map_mk, Forest.facts_of_node? topLive] at unitRoomy nonneg
  have covers := (Outline.roomy_mk.mp unitRoomy).1
  rw [List.map_map] at covers
  rw [childLinks, List.map_map]
  refine ⟨le_of_eq_of_le (congrArg List.sum ?_) covers, nonneg⟩
  exact List.map_congr_left fun child _ =>
    congrArg Facts.counts (Rose.label_map tree.forest.facts child).symm

/-- As long as every entry that comes is consistent, of whatever kind and below whatever unit, every
node counts at least what its children count, and nothing is counted below zero. The tree must not
have begun with a function that holds more than it counts. -/
theorem counters_cover_their_children {base : Entry} (consistent : base.Consistent)
    (holds : base.kind = .function → (∀ inner ∈ base.nested, inner.Consistent) ∧
      (base.nested.map Entry.counts).sum ≤ base.counts)
    (evolves : (ofEntry base).tree.ConsistentlyEvolves tree) :
    ∀ handle node, tree.node? handle = some node →
      (node.children.map fun child => (tree.forest.facts child).counts).sum ≤ node.counts ∧
        0 ≤ node.counts := by
  obtain ⟨-, _, begins⟩ := ofEntry_shows base
  obtain ⟨_, _, shows, roomy⟩ := evolves.roomy begins (consistent.roomy_root holds)
  exact fun handle node live => shows.covers roomy live

/-- A package with a file, a class right in the project, and another right in the file: the file and
the project count less than they contribute, and no less than their children count. -/
theorem classes_out_of_place_are_covered :
    let file : Entry := ⟨.sourceFile, "A.java", 0, []⟩
    let base : Entry := ⟨.package, "p", 0, [file]⟩
    let outer : Entry := .ofClass "A" [.function "f"]
    let inner : Entry := .ofClass "B" [.function "g"]
    ∃ middle last, (ofEntry base).tree.mutate (.create "p" outer) = .ok middle ∧
      middle.tree.mutate (.create "A.java" inner) = .ok last ∧
      base.Consistent ∧ (ofEntry base).tree.ConsistentlyEvolves last.tree ∧
      last.tree.outline?.map (fun outline => outline.label.counts) = some ⟨0, 2⟩ ∧
      ∀ handle node, last.tree.node? handle = some node →
        (node.children.map fun child => (last.tree.forest.facts child).counts).sum ≤ node.counts ∧
          0 ≤ node.counts := by
  intro file base outer inner
  have computed : ((ofEntry base).tree.mutate (.create "p" outer)).toOption.any (fun middle =>
      (middle.tree.mutate (.create "A.java" inner)).toOption.any fun last =>
        decide (last.tree.outline?.map (fun outline => outline.label.counts) =
          some ⟨0, 2⟩)) = true := by decide +kernel
  obtain ⟨middle, added, goesOn⟩ := Fault.ok_of_any computed
  obtain ⟨last, addedInside, counted⟩ := Fault.ok_of_any goesOn
  have fileConsistent : file.Consistent := .branch rfl nofun
  have baseConsistent : base.Consistent := .branch rfl (by simpa using fileConsistent)
  have classConsistent : ∀ name method, (Entry.ofClass name [.function method]).Consistent :=
    fun name method => .branch rfl (by simpa using .function)
  have evolves : (ofEntry base).tree.ConsistentlyEvolves last.tree := by
    refine .mutated (.mutated .refl ?_ added) ?_ addedInside
    · rintro _ ⟨⟩
      exact classConsistent "A" "f"
    · rintro _ ⟨⟩
      exact classConsistent "B" "g"
  exact ⟨middle, last, added, addedInside, baseConsistent, evolves, of_decide_eq_true counted,
    counters_cover_their_children baseConsistent nofun evolves⟩

/-- A function that holds a class counts nothing, and becomes a module that counts nothing: less
than the class counts, and less than nothing once the class is gone. -/
theorem function_at_the_top_covers_nothing :
    let inner : Entry := .ofClass "A" [.function "f"]
    let base : Entry := ⟨.function, "main", 0, [inner]⟩
    let tree := (ofEntry base).tree
    base.Consistent ∧ inner.Consistent ∧ tree.ConsistentlyEvolves tree ∧
      (∃ root, tree.node? tree.root = some root ∧ root.kind = .module ∧ root.children = [1] ∧
        ¬(root.children.map fun child => (tree.forest.facts child).counts).sum ≤ root.counts) ∧
      ∃ outcome, tree.mutate (.delete "main" "A") = .ok outcome ∧ outcome.result = .ok () ∧
        tree.ConsistentlyEvolves outcome.tree ∧
        ∃ root, outcome.tree.node? outcome.tree.root = some root ∧ root.counts = ⟨0, -1⟩ ∧
          ¬0 ≤ root.counts := by
  intro inner base tree
  have computed : (tree.mutate (.delete "main" "A")).toOption.any (fun outcome =>
      decide ((outcome.tree.node? outcome.tree.root).map Node.counts = some ⟨0, -1⟩) &&
        outcome.result.toOption.any fun _ => true) = true := by decide +kernel
  obtain ⟨outcome, removed, holds⟩ := Fault.ok_of_any computed
  rw [Bool.and_eq_true] at holds
  obtain ⟨root, live, below⟩ := Option.map_eq_some_iff.mp (of_decide_eq_true holds.1)
  obtain ⟨_, result, -⟩ := Fault.ok_of_any holds.2
  have uncovered : ¬(⟨0, 1⟩ : Count) ≤ 0 := fun less => absurd less.2 (by decide)
  have negative : ¬(0 : Count) ≤ ⟨0, -1⟩ := fun less => absurd less.2 (by decide)
  have evolves : tree.ConsistentlyEvolves outcome.tree := by
    refine .mutated .refl ?_ removed
    rintro _ ⟨⟩
  exact ⟨.function, .branch rfl (by simpa using .function), .refl, ⟨_, rfl, rfl, rfl, uncovered⟩,
    outcome, removed, result, evolves, root, live, below, below ▸ negative⟩

end Tree

end CodeCensus
