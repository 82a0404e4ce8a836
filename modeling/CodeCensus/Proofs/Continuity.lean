import CodeCensus.Proofs.Growth
import Mathlib.Logic.Relation

/-!
# What a forest keeps over time

`Continues` relates a forest to a later one: live handles keep their kind and parent, retired
handles stay retired, handles are given out in order, and nodes without a parent never leave. It
composes, so it is shown of one graft, one cut and one relabelling, and then holds of any run.
`WellLinked` is what the links of a forest look like to a walk that follows them.
-/

namespace CodeCensus

/-- What links a node to others, and its kind. -/
def Node.links (node : Node) : Option Handle × List Handle × Kind :=
  (node.parent, node.children, node.kind)

namespace Forest

open Relation (ReflTransGen TransGen)

variable {before middle after forest : Forest}

/-- Only names and counters differ. -/
structure Relabelled (before after : Forest) : Prop where
  links : ∀ handle, (after.node? handle).map Node.links = (before.node? handle).map Node.links
  root : after.root = before.root
  slots : after.fresh = before.fresh

/-- A forest is its own relabelling. -/
theorem Relabelled.refl : Relabelled before before := ⟨fun _ => rfl, rfl, rfl⟩

/-- A relabelling of a relabelling is one. -/
theorem Relabelled.trans (firstly : Relabelled before middle) (secondly : Relabelled middle after) :
    Relabelled before after where
  links handle := (secondly.links handle).trans (firstly.links handle)
  root := secondly.root.trans firstly.root
  slots := secondly.slots.trans firstly.slots

/-- A node has a counterpart with the same links. -/
theorem Relabelled.node? (relabelled : Relabelled before after) {handle : Handle} {node : Node}
    (live : before.node? handle = some node) :
    ∃ later, after.node? handle = some later ∧ later.links = node.links := by
  have same := relabelled.links handle
  rw [live, Option.map_some] at same
  exact Option.map_eq_some_iff.mp same

private theorem Relabelled.symm (relabelled : Relabelled before after) :
    Relabelled after before where
  links handle := (relabelled.links handle).symm
  root := relabelled.root.symm
  slots := relabelled.slots.symm

/-- Setting a node with the same links relabels. -/
theorem relabelled_set {handle : Handle} {node later : Node}
    (live : forest.node? handle = some node) (same : later.links = node.links) :
    Relabelled forest (forest.set handle later) where
  links other := by
    rw [node?_set _ (lt_fresh_of_node? live)]
    by_cases here : other = handle
    · subst here
      simp [live, same]
    · rw [if_neg here]
  root := rfl
  slots := fresh_set later

private theorem Shaped.relabelled {parent : Option Handle} {shape : Rose Handle}
    (shaped : before.Shaped parent shape) (relabelled : Relabelled before after) :
    after.Shaped parent shape := by
  induction shaped with
  | @node parent handle node below live parentLink childLinks terminal later _ inductionHypothesis =>
    obtain ⟨relabelledNode, relabelledLive, same⟩ := relabelled.node? live
    simp only [Node.links, Prod.mk.injEq] at same
    obtain ⟨sameParent, sameChildren, sameKind⟩ := same
    refine .node relabelledLive (sameParent.trans parentLink) (sameChildren.trans childLinks) ?_
      later inductionHypothesis
    intro leaf
    refine terminal ?_
    rwa [Node.isLeaf, ← sameKind]

/-- Relabelling keeps a forest in shape. -/
theorem Formed.relabelled {shapes : List (Rose Handle)} (formed : before.Formed shapes)
    (relabelled : Relabelled before after) : after.Formed shapes where
  shaped shape member := (formed.shaped shape member).relabelled relabelled
  distinct := formed.distinct
  exhaustive handle node live := by
    obtain ⟨old, was, -⟩ := relabelled.symm.node? live
    exact formed.exhaustive handle old was
  rooted top isRoot := formed.rooted top (relabelled.root ▸ isRoot)

/-- A later state of a forest. -/
structure Continues (before after : Forest) : Prop where
  steady : ∀ handle old new, before.node? handle = some old → after.node? handle = some new →
    new.kind = old.kind ∧ new.parent = old.parent
  retired : ∀ handle, handle < before.fresh → before.node? handle = none →
    after.node? handle = none
  tops : ∀ handle old, before.node? handle = some old → old.parent = none →
    ∃ new, after.node? handle = some new ∧ new.parent = none
  rooted : before.root.isSome → after.root.isSome
  slots : before.fresh ≤ after.fresh

/-- A forest continues itself. -/
theorem Continues.refl : Continues before before where
  steady handle old new was is := by
    obtain rfl : old = new := Option.some.inj (was.symm.trans is)
    exact ⟨rfl, rfl⟩
  retired _ _ gone := gone
  tops _ old was top := ⟨old, was, top⟩
  rooted := id
  slots := Nat.le_refl _

/-- What continues a continuation of a forest continues the forest. -/
theorem Continues.trans (firstly : Continues before middle) (secondly : Continues middle after) :
    Continues before after where
  steady handle old new was is := by
    -- A handle live at both ends was live in between, or it would have stayed retired.
    cases between : middle.node? handle with
    | none =>
      have bound := Nat.lt_of_lt_of_le (lt_fresh_of_node? was) firstly.slots
      rw [secondly.retired handle bound between] at is
      cases is
    | some mid =>
      obtain ⟨firstKind, firstParent⟩ := firstly.steady handle old mid was between
      obtain ⟨secondKind, secondParent⟩ := secondly.steady handle mid new between is
      exact ⟨secondKind.trans firstKind, secondParent.trans firstParent⟩
  retired handle bound gone :=
    secondly.retired handle (Nat.lt_of_lt_of_le bound firstly.slots)
      (firstly.retired handle bound gone)
  tops handle old was top := by
    obtain ⟨mid, between, stillTop⟩ := firstly.tops handle old was top
    exact secondly.tops handle mid between stillTop
  rooted := secondly.rooted ∘ firstly.rooted
  slots := Nat.le_trans firstly.slots secondly.slots

/-- A relabelled forest continues the old one. -/
theorem Relabelled.continues (relabelled : Relabelled before after) : Continues before after where
  steady handle old new was is := by
    obtain ⟨later, live, same⟩ := relabelled.node? was
    obtain rfl : later = new := Option.some.inj (live.symm.trans is)
    simp only [Node.links, Prod.mk.injEq] at same
    exact ⟨same.2.2, same.1⟩
  retired handle _ gone := by
    have same := relabelled.links handle
    rwa [gone, Option.map_none, Option.map_eq_none_iff] at same
  tops handle old was top := by
    obtain ⟨later, live, same⟩ := relabelled.node? was
    simp only [Node.links, Prod.mk.injEq] at same
    exact ⟨later, live, same.1.trans top⟩
  rooted := by
    rw [relabelled.root]
    exact id
  slots := Nat.le_of_eq relabelled.slots.symm

/-- A forest with a graft continues the old one. -/
theorem Grafted.continues {parent : Handle} {grown : List (Rose Handle)}
    (grafted : Grafted before after parent grown) : Continues before after where
  steady handle old new was is := by
    by_cases here : handle = parent
    · subst here
      rw [grafted.parentNode, was, Option.map_some] at is
      obtain rfl := Option.some.inj is
      exact ⟨rfl, rfl⟩
    · rw [grafted.others handle (lt_fresh_of_node? was) here, was] at is
      obtain rfl := Option.some.inj is
      exact ⟨rfl, rfl⟩
  retired handle bound gone := by
    by_cases here : handle = parent
    · subst here
      rw [grafted.parentNode, gone, Option.map_none]
    · rw [grafted.others handle bound here, gone]
  tops handle old was top := by
    by_cases here : handle = parent
    · subst here
      refine ⟨{ old with children := old.children ++ grown.map Rose.label }, ?_, top⟩
      rw [grafted.parentNode, was, Option.map_some]
    · exact ⟨old, by rw [grafted.others handle (lt_fresh_of_node? was) here, was], top⟩
  rooted := by
    rw [grafted.root]
    exact id
  slots := grafted.slots

/-- Below a parent every node has a parent. -/
theorem Shaped.parent_ne_none {parent handle : Handle} {shape : Rose Handle} {node : Node}
    (shaped : forest.Shaped (some parent) shape) (member : handle ∈ shape.labels)
    (live : forest.node? handle = some node) : node.parent ≠ none := by
  induction shape using Rose.induct generalizing parent with
  | node top below inductionHypothesis =>
    rw [Rose.labels_mk, List.mem_cons] at member
    rcases member with rfl | lower
    · obtain ⟨topNode, topLive, parentLink, -⟩ := shaped.top
      obtain rfl : topNode = node := Option.some.inj (topLive.symm.trans live)
      simp [parentLink]
    · obtain ⟨child, childMember, inChild⟩ := List.mem_flatMap.mp lower
      exact inductionHypothesis child childMember (shaped.child childMember) inChild

/-- A forest with a subtree cut off continues the old one. -/
theorem Pruned.continues {parent : Handle} {index : Nat} {cut : Rose Handle}
    (pruned : Pruned before after parent index cut) (shaped : before.Shaped (some parent) cut) :
    Continues before after where
  steady handle old new was is := by
    by_cases gone : handle ∈ cut.labels
    · rw [pruned.removed handle gone] at is
      cases is
    · by_cases here : handle = parent
      · subst here
        rw [pruned.parentNode, was, Option.map_some] at is
        obtain rfl := Option.some.inj is
        exact ⟨rfl, rfl⟩
      · rw [pruned.others handle gone here, was] at is
        obtain rfl := Option.some.inj is
        exact ⟨rfl, rfl⟩
  retired handle _ was := by
    by_cases gone : handle ∈ cut.labels
    · exact pruned.removed handle gone
    · by_cases here : handle = parent
      · subst here
        rw [pruned.parentNode, was, Option.map_none]
      · rw [pruned.others handle gone here, was]
  tops handle old was top := by
    have stays : handle ∉ cut.labels :=
      fun gone => shaped.parent_ne_none gone was top
    by_cases here : handle = parent
    · subst here
      refine ⟨{ old with children := old.children.eraseIdx index }, ?_, top⟩
      rw [pruned.parentNode, was, Option.map_some]
    · exact ⟨old, by rw [pruned.others handle stays here, was], top⟩
  rooted := by
    rw [pruned.root]
    exact id
  slots := Nat.le_of_eq pruned.slots.symm

/-- Planting a new root keeps everything else. -/
theorem insert_root (forest : Forest) (entry : Entry) :
    ∃ planted, forest.insert entry none = .ok (planted, forest.fresh) ∧
      planted.root = some forest.fresh ∧ planted.fresh = forest.fresh + 1 ∧
      ∀ handle, planted.node? handle = if handle = forest.fresh then some (.ofEntry entry none)
        else forest.node? handle := by
  refine ⟨{ forest.append (.ofEntry entry none) with root := some forest.fresh }, rfl, rfl, ?_, ?_⟩
  · exact fresh_append _
  · intro handle
    exact node?_append _

/-- A new root in a new slot is one more shape of a forest. -/
theorem Formed.planted {shapes : List (Rose Handle)} {entry : Entry}
    (formed : before.Formed shapes) (root : after.root = some before.fresh)
    (lookup : ∀ handle, after.node? handle = if handle = before.fresh then
      some (.ofEntry entry none) else before.node? handle) :
    after.Formed (shapes ++ [⟨before.fresh, []⟩]) where
  shaped shape member := by
    rcases List.mem_append.mp member with old | new
    · refine (formed.shaped shape old).congr fun handle inShape => ?_
      obtain ⟨node, live⟩ := (formed.shaped shape old).live inShape
      rw [lookup, if_neg (Nat.ne_of_lt (lt_fresh_of_node? live))]
    · obtain rfl := List.mem_singleton.mp new
      have live := lookup before.fresh
      rw [if_pos rfl] at live
      exact .node live rfl rfl (fun _ => rfl) (by simp) (by simp)
  distinct := by
    rw [List.flatMap_append, List.nodup_append]
    refine ⟨formed.distinct, by simp, fun handle old other new => ?_⟩
    obtain rfl : other = before.fresh := by simpa using new
    obtain ⟨shape, member, inShape⟩ := List.mem_flatMap.mp old
    obtain ⟨node, live⟩ := (formed.shaped shape member).live inShape
    exact Nat.ne_of_lt (lt_fresh_of_node? live)
  exhaustive handle node live := by
    rw [List.flatMap_append, List.mem_append]
    rw [lookup] at live
    by_cases new : handle = before.fresh
    · simp [new]
    · rw [if_neg new] at live
      exact .inl (formed.exhaustive handle node live)
  rooted top isRoot := by
    rw [root] at isRoot
    exact ⟨⟨before.fresh, []⟩, by simp, Option.some.inj isRoot⟩

/-- A forest with a new root continues the old one. -/
theorem planted_continues {entry : Entry} (root : after.root = some before.fresh)
    (slots : after.fresh = before.fresh + 1)
    (lookup : ∀ handle, after.node? handle = if handle = before.fresh then
      some (.ofEntry entry none) else before.node? handle) : Continues before after := by
  have same : ∀ handle, handle < before.fresh → after.node? handle = before.node? handle := by
    intro handle bound
    rw [lookup, if_neg (Nat.ne_of_lt bound)]
  constructor
  · intro handle old new was is
    rw [same handle (lt_fresh_of_node? was), was] at is
    obtain rfl := Option.some.inj is
    exact ⟨rfl, rfl⟩
  · intro handle bound gone
    rw [same handle bound, gone]
  · intro handle old was top
    exact ⟨old, by rw [same handle (lt_fresh_of_node? was), was], top⟩
  · simp [root]
  · rw [slots]
    exact Nat.le_succ _

/-! ### Links -/

/-- The parent link of the lower handle leads to the upper one. -/
def IsParent (forest : Forest) (lower upper : Handle) : Prop :=
  ∃ node, forest.node? lower = some node ∧ node.parent = some upper

/-- Child lists and parent links agree, and parent links lead out of the forest. -/
structure WellLinked (forest : Forest) : Prop where
  children : ∀ handle node, forest.node? handle = some node → ∀ child ∈ node.children,
    ∃ below, forest.node? child = some below ∧ below.parent = some handle
  distinct : ∀ handle node, forest.node? handle = some node → node.children.Nodup
  parent : ∀ handle node upper, forest.node? handle = some node → node.parent = some upper →
    ∃ above, forest.node? upper = some above ∧ above.children.count handle = 1
  terminal : ∀ handle node, forest.node? handle = some node → node.isLeaf = true →
    node.children = []
  ascent : ∀ handle node, forest.node? handle = some node → ∃ top highest,
    ReflTransGen forest.IsParent handle top ∧ forest.node? top = some highest ∧
      highest.parent = none
  acyclic : ∀ handle, ¬TransGen forest.IsParent handle handle

/-- The parent of a node in a shape is the node one step up. -/
theorem Shaped.parent_at? {shape subshape : Rose Handle} {position : Position} {node : Node}
    (shaped : forest.Shaped none shape) (here : shape.at? position = some subshape)
    (live : forest.node? subshape.label = some node) :
    (position = [] ∧ node.parent = none) ∨
      ∃ upper index above, position = upper ++ [index] ∧ shape.at? upper = some above ∧
        above.children[index]? = some subshape ∧ node.parent = some above.label ∧
        above.label < subshape.label := by
  induction position using List.reverseRecOn with
  | nil =>
    obtain rfl : shape = subshape := Option.some.inj here
    obtain ⟨top, topLive, parentLink, -⟩ := shaped.top
    obtain rfl : top = node := Option.some.inj (topLive.symm.trans live)
    exact .inl ⟨rfl, parentLink⟩
  | append_singleton upper index _ =>
    rw [Rose.at?_append] at here
    obtain ⟨above, there, below⟩ := Option.bind_eq_some_iff.mp here
    obtain ⟨child, found, rfl⟩ : ∃ child, above.children[index]? = some child ∧ child = subshape := by
      simpa [Option.bind_eq_some_iff] using below
    obtain ⟨_, aboveShaped⟩ := shaped.at? there
    have member := List.mem_of_getElem? found
    obtain ⟨top, topLive, parentLink, -⟩ := (aboveShaped.child member).top
    obtain rfl : top = node := Option.some.inj (topLive.symm.trans live)
    have lower : above.label < child.label := by
      cases aboveShaped with
      | node _ _ _ _ later _ => exact later child member
    exact .inr ⟨upper, index, above, rfl, there, found, parentLink, lower⟩

/-- Parent links lead from every position of a shape to its top. -/
theorem Shaped.ascends {shape subshape : Rose Handle} {position : Position}
    (shaped : forest.Shaped none shape) (here : shape.at? position = some subshape) :
    ReflTransGen forest.IsParent subshape.label shape.label := by
  induction position using List.reverseRecOn generalizing subshape with
  | nil =>
    obtain rfl : shape = subshape := Option.some.inj here
    exact .refl
  | append_singleton upper index inductionHypothesis =>
    obtain ⟨_, subshaped⟩ := shaped.at? here
    obtain ⟨node, live, -⟩ := subshaped.top
    rcases shaped.parent_at? here live with ⟨impossible, -⟩ | ⟨_, _, above, same, there, -, link, -⟩
    · simp at impossible
    · obtain ⟨rfl, -⟩ := List.append_inj' same rfl
      exact .head ⟨node, live, link⟩ (inductionHypothesis there)

/-- A parent has a lower handle than its children, as it was there before them. -/
theorem Formed.parent_lt {shapes : List (Rose Handle)} (formed : forest.Formed shapes)
    {lower upper : Handle} (link : forest.IsParent lower upper) : upper < lower := by
  obtain ⟨node, live, parentLink⟩ := link
  obtain ⟨shape, member, position, subshape, here, rfl⟩ := formed.position live
  rcases (formed.shaped shape member).parent_at? here live with
    ⟨-, none_above⟩ | ⟨_, _, above, -, -, -, sameLink, below⟩
  · rw [none_above] at parentLink
    cases parentLink
  · obtain rfl : above.label = upper := Option.some.inj (sameLink.symm.trans parentLink)
    exact below

/-- A forest in shape is linked in both directions. -/
theorem Formed.wellLinked {shapes : List (Rose Handle)} (formed : forest.Formed shapes) :
    forest.WellLinked := by
  -- Each live node is the top of a subshape, whose children have distinct handles.
  have subshape_of : ∀ handle node, forest.node? handle = some node →
      ∃ shape ∈ shapes, ∃ position subshape, shape.at? position = some subshape ∧
        subshape.label = handle ∧ node.children = subshape.children.map Rose.label ∧
        (node.isLeaf = true → subshape.children = []) ∧
        (∀ child ∈ subshape.children, forest.Shaped (some handle) child) ∧
        (subshape.children.map Rose.label).Nodup := by
    intro handle node live
    obtain ⟨shape, member, position, subshape, here, rfl⟩ := formed.position live
    obtain ⟨_, subshaped⟩ := (formed.shaped shape member).at? here
    obtain ⟨top, topLive, -, childLinks, terminal⟩ := subshaped.top
    obtain rfl : top = node := Option.some.inj (topLive.symm.trans live)
    have distinct := Rose.distinct_of_at? (formed.distinct_of_mem member) here
    refine ⟨shape, member, position, subshape, here, rfl, childLinks, terminal,
      fun child childMember => subshaped.child childMember, ?_⟩
    cases subshape
    rw [Rose.labels_mk, List.nodup_cons] at distinct
    exact distinct.2.sublist (Rose.map_label_sublist _)
  constructor
  · intro handle node live child childMember
    obtain ⟨_, _, _, subshape, _, _, childLinks, _, childShaped, _⟩ := subshape_of handle node live
    rw [childLinks] at childMember
    obtain ⟨below, belowMember, rfl⟩ := List.mem_map.mp childMember
    obtain ⟨top, topLive, parentLink, -⟩ := (childShaped below belowMember).top
    exact ⟨top, topLive, parentLink⟩
  · intro handle node live
    obtain ⟨_, _, _, _, _, _, childLinks, _, _, distinct⟩ := subshape_of handle node live
    rwa [childLinks]
  · intro handle node upper live parentLink
    obtain ⟨shape, member, position, subshape, here, rfl⟩ := formed.position live
    rcases (formed.shaped shape member).parent_at? here live with
      ⟨-, none_above⟩ | ⟨_, index, above, -, there, found, sameLink, -⟩
    · rw [none_above] at parentLink
      cases parentLink
    · obtain rfl : above.label = upper := Option.some.inj (sameLink.symm.trans parentLink)
      obtain ⟨_, aboveShaped⟩ := (formed.shaped shape member).at? there
      obtain ⟨top, topLive, -, childLinks, -⟩ := aboveShaped.top
      obtain ⟨_, _, _, _, _, _, sameLinks, _, _, distinct⟩ := subshape_of _ top topLive
      refine ⟨top, topLive, List.count_eq_one_of_mem (sameLinks ▸ distinct) ?_⟩
      rw [childLinks]
      exact List.mem_map_of_mem (List.mem_of_getElem? found)
  · intro handle node live leaf
    obtain ⟨_, _, _, _, _, _, childLinks, terminal, _⟩ := subshape_of handle node live
    rw [childLinks, terminal leaf, List.map_nil]
  · intro handle node live
    obtain ⟨shape, member, position, subshape, here, rfl⟩ := formed.position live
    obtain ⟨highest, topLive, parentLink, -⟩ := (formed.shaped shape member).top
    exact ⟨shape.label, highest, (formed.shaped shape member).ascends here, topLive, parentLink⟩
  · intro handle cycle
    have descends : ∀ {lower upper : Handle}, TransGen forest.IsParent lower upper →
        upper < lower := by
      intro lower upper chain
      induction chain with
      | single link => exact formed.parent_lt link
      | tail _ link inductionHypothesis => exact Nat.lt_trans (formed.parent_lt link) inductionHypothesis
    exact Nat.lt_irrefl handle (descends cycle)

end Forest

end CodeCensus
