import CodeCensus.Tree.Basic
import CodeCensus.Proofs.Continuity

/-!
# Materializing entries

Appending an entry with everything nested in it is one graft, which shows the outline of the entry.
The outline of an entry is the entry itself, except that a function loses its counters and whatever
is nested in it.
-/

namespace CodeCensus

/-- A property that passes from the nested entries to the entry holds of every entry. -/
@[elab_as_elim]
theorem Entry.induct {motive : Entry → Prop}
    (entry : ∀ kind name counts nested, (∀ inner ∈ nested, motive inner) →
      motive ⟨kind, name, counts, nested⟩) : ∀ outer, motive outer
  | ⟨kind, name, counts, nested⟩ =>
    entry kind name counts nested fun inner _ => induct entry inner

mutual

/-- The outline that an entry asks for. -/
def Outline.ofEntry : Entry → Outline
  | ⟨.branch kind, name, counts, nested⟩ => ⟨⟨.branch kind, name, counts⟩, Outline.ofEntries nested⟩
  | ⟨.function, name, _, _⟩ => ⟨⟨.function, name, 0⟩, []⟩

/-- The outlines that some entries ask for. -/
def Outline.ofEntries : List Entry → List Outline
  | [] => []
  | entry :: entries => Outline.ofEntry entry :: Outline.ofEntries entries

end

private theorem Outline.ofEntries_eq (entries : List Entry) :
    Outline.ofEntries entries = entries.map Outline.ofEntry := by
  induction entries with
  | nil => rfl
  | cons entry entries inductionHypothesis =>
    rw [Outline.ofEntries, inductionHypothesis, List.map_cons]

@[simp] theorem Outline.ofEntry_branch (kind : BranchKind) (name : String) (counts : Count)
    (nested : List Entry) : Outline.ofEntry ⟨.branch kind, name, counts, nested⟩ =
      ⟨⟨.branch kind, name, counts⟩, nested.map Outline.ofEntry⟩ := by
  rw [Outline.ofEntry, Outline.ofEntries_eq]

@[simp] theorem Outline.ofEntry_function (name : String) (counts : Count) (nested : List Entry) :
    Outline.ofEntry ⟨.function, name, counts, nested⟩ = ⟨⟨.function, name, 0⟩, []⟩ := by
  rw [Outline.ofEntry]

/-- The outline of an entry has its name. -/
theorem Outline.ofEntry_name (entry : Entry) : (ofEntry entry).label.name = entry.name := by
  obtain ⟨_ | _, name, counts, nested⟩ := entry <;> simp

/-- The unit of an entry counts what the entry says, unless the entry is one of a function. -/
theorem Outline.ofEntry_counts {entry : Entry} (bare : entry.kind = .function → entry.counts = 0) :
    (ofEntry entry).label.counts = entry.counts := by
  obtain ⟨kind, name, counts, nested⟩ := entry
  cases kind with
  | branch kind => rw [ofEntry_branch]
  | function => rw [ofEntry_function, bare rfl]

namespace Forest

variable {before middle after : Forest} {parent : Handle} {grown : List (Rose Handle)}

/-- A graft changes nothing that is shown of the nodes that were there. -/
theorem Grafted.facts {handle : Handle} {node : Node} (grafted : Grafted before after parent grown)
    (live : before.node? handle = some node) : after.facts handle = before.facts handle := by
  by_cases here : handle = parent
  · subst here
    have top := grafted.parentNode
    rw [live, Option.map_some] at top
    rw [facts_of_node? live, facts_of_node? top]
    rfl
  · exact facts_congr (grafted.others handle (lt_fresh_of_node? live) here)

/-- Grafting below a node that was just grafted is one graft of a deeper shape. -/
theorem Grafted.nest {node : Node} (inside : parent < before.fresh)
    (firstly : Grafted before middle parent [⟨before.fresh, []⟩])
    (planted : middle.node? before.fresh = some node) (branch : node.isLeaf = false)
    (slots : middle.fresh = before.fresh + 1)
    (secondly : Grafted middle after before.fresh grown) :
    Grafted before after parent [⟨before.fresh, grown⟩] := by
  have late : ∀ handle ∈ grown.flatMap Rose.labels, before.fresh < handle := by
    intro handle member
    have unused := secondly.unused handle member
    rw [slots] at unused
    exact unused
  have topNode := secondly.parentNode
  rw [planted, Option.map_some] at topNode
  have outside : ∀ handle, handle < before.fresh → after.node? handle = middle.node? handle := by
    intro handle bound
    refine secondly.others handle ?_ (Nat.ne_of_lt bound)
    rw [slots]
    exact Nat.lt_succ_of_lt bound
  obtain ⟨top, topLive, parentLink, childLinks, -⟩ :=
    (firstly.shaped ⟨before.fresh, []⟩ (by simp)).top
  obtain rfl : top = node := Option.some.inj (topLive.symm.trans planted)
  constructor
  · intro shape member
    obtain rfl := List.mem_singleton.mp member
    refine .node topNode parentLink (by simp [childLinks]) ?_ ?_ secondly.shaped
    · intro leaf
      exact absurd (branch.symm.trans leaf) (by simp)
    · intro child childMember
      exact late child.label
        (List.mem_flatMap.mpr ⟨child, childMember, Rose.label_mem_labels child⟩)
  · rw [outside parent inside, firstly.parentNode]
    rfl
  · intro handle bound apart
    rw [outside handle bound, firstly.others handle bound apart]
  · intro handle member
    simp only [List.flatMap_singleton, Rose.labels_mk, List.mem_cons] at member
    rcases member with rfl | lower
    · exact Nat.le_refl _
    · exact Nat.le_of_lt (late handle lower)
  · simp only [List.flatMap_singleton, Rose.labels_mk, List.nodup_cons]
    exact ⟨fun member => Nat.lt_irrefl _ (late _ member), secondly.distinct⟩
  · intro handle other beyond live
    simp only [List.flatMap_singleton, Rose.labels_mk, List.mem_cons]
    by_cases new : handle = before.fresh
    · exact .inl new
    · have above : middle.fresh ≤ handle := by
        rw [slots]
        exact Nat.lt_of_le_of_ne beyond (Ne.symm new)
      exact .inr (secondly.exhaustive handle other above live)
  · exact secondly.root.trans firstly.root
  · exact Nat.le_trans firstly.slots secondly.slots

end Forest

namespace Tree

open Forest (Grafted)

variable {before middle after : Tree} {parent : Handle}

/-- The tree after outlines were added behind the children of a node. -/
structure Grown (before after : Tree) (parent : Handle) (shapes : List (Rose Handle))
    (outlines : List Outline) : Prop where
  grafted : Grafted before.forest after.forest parent shapes
  shown : shapes.map (Rose.map after.forest.facts) = outlines
  root : after.root = before.root

private theorem Grown.refl : Grown before before parent [] [] := ⟨.refl, rfl, rfl⟩

private theorem Grown.trans {first second : List (Rose Handle)} {early late : List Outline}
    (inside : parent < before.forest.fresh) (firstly : Grown before middle parent first early)
    (secondly : Grown middle after parent second late) :
    Grown before after parent (first ++ second) (early ++ late) where
  grafted := firstly.grafted.trans inside secondly.grafted
  shown := by
    rw [List.map_append, secondly.shown, ← firstly.shown]
    congr 1
    refine List.map_congr_left fun shape member => Rose.map_congr fun handle inShape => ?_
    obtain ⟨node, live⟩ := (firstly.grafted.shaped shape member).live inShape
    exact secondly.grafted.facts live
  root := secondly.root.trans firstly.root

/-- Appending entries below a branch succeeds if appending each of them does. -/
theorem materializeAll_grown {entries : List Entry}
    (each : ∀ entry ∈ entries, ∀ (tree : Tree) (node : Node),
      tree.forest.node? parent = some node → node.isLeaf = false →
      ∃ grown shape, tree.materialize parent entry = (grown, .ok shape.label) ∧
        Grown tree grown parent [shape] [Outline.ofEntry entry])
    (tree : Tree) {node : Node} (live : tree.forest.node? parent = some node)
    (branch : node.isLeaf = false) :
    ∃ grown shapes, tree.materializeAll parent entries = (grown, .ok ()) ∧
      Grown tree grown parent shapes (entries.map Outline.ofEntry) := by
  induction entries generalizing tree node with
  | nil => exact ⟨tree, [], by rw [materializeAll], .refl⟩
  | cons entry entries inductionHypothesis =>
    obtain ⟨middle, shape, done, firstly⟩ := each entry (by simp) tree node live branch
    have stillLive := firstly.grafted.parentNode
    rw [live, Option.map_some] at stillLive
    obtain ⟨grown, shapes, doneAll, secondly⟩ :=
      inductionHypothesis (fun other member => each other (by simp [member])) middle stillLive branch
    refine ⟨grown, shape :: shapes, ?_, firstly.trans (Forest.lt_fresh_of_node? live) secondly⟩
    rw [materializeAll, done]
    exact doneAll

/-- Appending an entry below a branch succeeds and shows the outline of the entry. -/
theorem materialize_grown (entry : Entry) (tree : Tree) {node : Node}
    (live : tree.forest.node? parent = some node) (branch : node.isLeaf = false) :
    ∃ grown shape, tree.materialize parent entry = (grown, .ok shape.label) ∧
      Grown tree grown parent [shape] [Outline.ofEntry entry] := by
  induction entry using Entry.induct generalizing parent tree node with
  | entry kind name counts nested inductionHypothesis =>
    obtain ⟨forest, inserted, grafted, planted, slots⟩ :=
      Forest.insert_grafted live branch ⟨kind, name, counts, nested⟩
    let announced := { tree with forest }.notify
      (.inserted parent (({ tree with forest }.children parent).length - 1) tree.forest.fresh)
    cases kind with
    | function =>
      refine ⟨announced, ⟨tree.forest.fresh, []⟩, ?_, grafted, ?_, rfl⟩
      · rw [materialize, inserted]
        rfl
      · have shown : announced.forest.facts tree.forest.fresh = ⟨.function, name, 0⟩ :=
          Forest.facts_of_node? planted
        simp [shown]
    | branch kind =>
      obtain ⟨grown, shapes, done, nestedGrown⟩ := materializeAll_grown
        (fun inner member tree _ => inductionHypothesis inner member tree) announced planted rfl
      refine ⟨grown, ⟨tree.forest.fresh, shapes⟩, ?_, ?_, ?_, nestedGrown.root⟩
      · rw [materialize, inserted]
        simp only [Kind.isLeaf, Bool.false_eq_true, if_false]
        rw [done]
      · exact grafted.nest (Forest.lt_fresh_of_node? live) planted rfl slots nestedGrown.grafted
      · have shown : grown.forest.facts tree.forest.fresh = ⟨.branch kind, name, counts⟩ :=
          (nestedGrown.grafted.facts planted).trans (Forest.facts_of_node? planted)
        simp [shown, nestedGrown.shown]

end Tree

end CodeCensus
