import CodeCensus.Proofs.Lookup
import CodeCensus.Proofs.Revision
import CodeCensus.Proofs.Target

/-!
# Deleting what was created

A deletion looks up both names again, in the tree that a creation has left. The scope is found where
it was, since nothing before it changed. If it held nothing of the new name, the first unit of that
name inside it is the new one: whatever the entry brings along under the same name stands below the
new unit. So the deletion cuts off the very handles that the creation gave out, and takes back from
every unit above what the creation added to it. A node is what its links and its facts say, so every
node is what it was.
-/

namespace CodeCensus

open Forest (Grafted Pruned)
open Relation (ReflTransGen)

/-- Links and facts are all there is to a node. -/
theorem Node.eq_of_links_facts {node later : Node} (links : later.links = node.links)
    (facts : later.facts = node.facts) : later = node := by
  obtain ⟨name, payload, parent, children⟩ := node
  obtain ⟨laterName, laterPayload, laterParent, laterChildren⟩ := later
  cases payload <;> cases laterPayload <;>
    simp_all [Node.links, Node.facts, Node.kind, Node.counts]

/-- What is appended to the units in a scope that held nothing of its name is what the name finds
there. -/
theorem Outline.findWithin?_appended {outline parent new : Outline} {scope : String}
    {position : Position} (delta : Count) (found : outline.find? scope = some (position, parent))
    (unnamed : ∀ facts ∈ parent.labels, facts.name ≠ new.label.name) :
    (outline.exchange delta (· ++ [new]) position).findWithin? scope new.label.name =
      some (position ++ [parent.children.length], new) := by
  have scopeStays := find?_exchange delta (· ++ [new]) found
  have inside : find? ⟨parent.label.raise delta, parent.children ++ [new]⟩ new.label.name =
      some ([parent.children.length], new) := by
    rw [find?, Rose.locate?_eq_some]
    refine .inside ?_ (fun sibling member facts below => ?_) (.top (beq_self_eq_true _))
    · exact beq_false_of_ne (unnamed parent.label (Rose.label_mem_labels parent))
    · exact beq_false_of_ne (unnamed _ (Rose.mem_labels_of_child member below))
  rw [findWithin?, scopeStays, Option.bind_some, inside, Option.map_some]

/-- Cutting off what a graft added leaves every node as it was, if nothing else happened to the
nodes in between. -/
theorem Forest.Grafted.cut_back {before grown middle after : Forest} {parent : Handle} {node : Node}
    {new : Rose Handle} (grafted : Grafted before grown parent [new])
    (live : before.node? parent = some node)
    (level : ∀ handle, middle.node? handle = grown.node? handle)
    (cut : Pruned middle after parent node.children.length new) (handle : Handle) :
    after.node? handle = before.node? handle := by
  have newHandles : [new].flatMap Rose.labels = new.labels := List.flatMap_singleton ..
  by_cases isNew : handle ∈ new.labels
  · rw [cut.removed handle isNew, node?_of_fresh_le (grafted.unused handle (newHandles ▸ isNew))]
  · by_cases isParent : handle = parent
    · subst isParent
      rw [cut.parentNode, level, grafted.parentNode, live, Option.map_some, Option.map_some,
        List.eraseIdx_append_of_length_le (Nat.le_refl _), Nat.sub_self]
      simp
    · rw [cut.others handle isNew isParent, level]
      by_cases old : handle < before.fresh
      · exact grafted.others handle old isParent
      · -- Beyond the handles that were there, the graft is all there is.
        have beyond := Nat.le_of_not_lt old
        rw [node?_of_fresh_le beyond, Option.eq_none_iff_forall_ne_some]
        intro other found
        exact isNew (newHandles ▸ grafted.exhaustive handle other beyond found)

namespace Tree

variable {tree grown raised lowered later : Tree} {shape : Rose Handle} {outline unit : Outline}
  {position : Position} {scope name : String} {entry : Entry} {delta : Count} {parent : Handle}
  {node : Node} {created deleted : Outcome}

/-- Raising nodes by a difference and by its opposite leaves every node as it was. -/
theorem Raised.cancel {handles : List Handle} (up : Raised tree raised delta handles)
    (down : Raised raised later (-delta) handles) (handle : Handle) :
    later.forest.node? handle = tree.forest.node? handle := by
  have relabelled := up.relabelled.trans down.relabelled
  have facts : later.forest.facts handle = tree.forest.facts handle := by
    rw [down.facts, up.facts]
    split
    · simp [Facts.raise]
    · rfl
  cases was : tree.forest.node? handle with
  | none => simpa [was] using relabelled.links handle
  | some node =>
    obtain ⟨other, live, links⟩ := relabelled.node? was
    rw [Forest.facts_of_node? live, Forest.facts_of_node? was] at facts
    rw [live, Node.eq_of_links_facts links facts]

/-- Trees with the same nodes have as many. -/
theorem Shows.size_eq {laterShape : Rose Handle} {laterOutline : Outline}
    (shows : tree.Shows shape outline) (laterShows : later.Shows laterShape laterOutline)
    (same : ∀ handle, later.node? handle = tree.node? handle) :
    later.forest.size = tree.forest.size := by
  rw [shows.formed.size, laterShows.formed.size, List.flatMap_singleton, List.flatMap_singleton]
  refine List.Perm.length_eq ?_
  refine (List.perm_ext_iff_of_nodup laterShows.distinct shows.distinct).mpr fun handle => ?_
  rw [← laterShows.live_iff, ← shows.live_iff, same]

/-- A tree finds what its outline finds. -/
theorem Shows.findWithin?_eq_some (shows : tree.Shows shape outline)
    (sees : outline.findWithin? scope name = some (position, unit)) :
    ∃ target, shape.at? position = some target ∧ tree.findWithin? scope name = some target.label ∧
      target.map tree.forest.facts = unit := by
  rcases shows.findWithin_cases scope name with ⟨-, absent⟩ | ⟨place, target, here, found, same⟩
  · cases absent.symm.trans sees
  · obtain ⟨rfl, rfl⟩ := Prod.mk.inj (Option.some.inj (same.symm.trans sees))
    exact ⟨target, here, found, rfl⟩

/-- Below a node stands what its outline shows, under the names that are shown. -/
theorem Shows.reaches_named {top : Rose Handle} {lower : Position}
    (shows : tree.Shows shape outline) (here : shape.at? position = some top)
    (there : (top.map tree.forest.facts).at? lower = some unit) :
    ∃ target, top.at? lower = some target ∧
      ReflTransGen tree.forest.IsChild top.label target.label ∧
      tree.name? target.label = some unit.label.name := by
  rw [Rose.at?_map] at there
  obtain ⟨target, below, rfl⟩ := Option.map_eq_some_iff.mp there
  obtain ⟨_, topShaped⟩ := shows.shaped.at? here
  obtain ⟨_, targetShaped⟩ := topShaped.at? below
  obtain ⟨node, live, -⟩ := targetShaped.top
  refine ⟨target, below, topShaped.descends below, name?_eq_some.mpr ⟨node, live, ?_⟩⟩
  rw [Rose.label_map, Forest.facts_of_node? live]
  rfl

/-! ### The two mutations -/

/-- A creation below a branch appends a unit and raises everything from the branch upward. -/
theorem Shows.create_stages (shows : tree.Shows shape outline)
    (found : tree.find? scope = some parent) (live : tree.node? parent = some node)
    (branch : node.isLeaf = false) (creates : tree.create scope entry = .ok created) :
    created.result = .ok () ∧ ∃ position top new grown, shape.at? position = some top ∧
      top.label = parent ∧
      outline.find? scope = some (position, top.map tree.forest.facts) ∧
      Grown tree grown parent [new] [Outline.ofEntry entry] ∧
      Raised grown created.tree entry.counts ((shape.graft [new] position).spine position) ∧
      created.tree.Shows (shape.graft [new] position)
        (outline.exchange entry.counts (· ++ [Outline.ofEntry entry]) position) := by
  cases shows.create_course creates with
  | missed absent => simp [misses, found] at absent
  | refused refusal => simp [refusal?, found, live, branch] at refusal
  | @created _ _ place top new topNode grown raised found' here topLive topBranch materializes grows
      raises =>
    obtain rfl : parent = top.label := Option.some.inj (found.symm.trans found')
    rcases shows.find_cases scope with ⟨absent, -⟩ | ⟨position, other, there, otherFound, sees⟩
    · cases absent.symm.trans found
    · have sameLabel : other.label = top.label := Option.some.inj (otherFound.symm.trans found)
      obtain rfl := (Rose.position_eq_iff shows.distinct there here).mpr sameLabel
      obtain rfl : other = top := Option.some.inj (there.symm.trans here)
      obtain ⟨grownShows, stillHere, _, laterLive, stillBranch⟩ :=
        shows.grown_branch here topLive topBranch grows
      obtain ⟨way, raisedShows⟩ := grownShows.raised_branch stillHere laterLive stillBranch raises
      rw [Outline.exchange_graft] at raisedShows
      exact ⟨rfl, position, other, new, grown, here, rfl, sees, grows, way, raisedShows⟩

/-- A deletion of what stands below another unit lowers everything above it and cuts it off. -/
theorem Shows.delete_stages {top target : Rose Handle} {index : Nat}
    (shows : tree.Shows shape outline) (here : shape.at? position = some top)
    (below : top.children[index]? = some target)
    (found : tree.findWithin? scope name = some target.label)
    (deletes : tree.delete scope name = .ok deleted) :
    deleted.result = .ok () ∧ ∃ lowered,
      Raised tree lowered (-(tree.forest.facts target.label).counts) (shape.spine position) ∧
      Pruned lowered.forest deleted.tree.forest top.label index target := by
  have targetHere : shape.at? (position ++ [index]) = some target := by
    simp [Rose.at?_append, here, below]
  cases shows.delete_course deletes with
  | missed absent => simp [misses, found] at absent
  | refused refusal =>
    obtain ⟨-, scopeNamed, named⟩ := refusal?_delete_eq_some.mp refusal
    have atRoot : target.label = tree.root :=
      Option.some.inj (found.symm.trans (shows.findWithin?_rootName scopeNamed named))
    rw [← shows.top] at atRoot
    have same := (Rose.position_eq_iff shows.distinct targetHere (Rose.at?_nil shape)).mpr atRoot
    simp at same
  | @deleted _ _ upper place above other aboveNode node lowered pruned found' there beside aboveLive
      branch live link increases raises removes =>
    have sameLabel : target.label = other.label := Option.some.inj (found.symm.trans found')
    have otherHere : shape.at? (upper ++ [place]) = some other := by
      simp [Rose.at?_append, there, beside]
    have samePlace := (Rose.position_eq_iff shows.distinct targetHere otherHere).mpr sameLabel
    obtain ⟨rfl, rfl⟩ : position = upper ∧ index = place := by simpa using samePlace
    obtain rfl : top = above := Option.some.inj (here.symm.trans there)
    obtain rfl : target = other := Option.some.inj (below.symm.trans beside)
    obtain ⟨way, loweredShows⟩ := shows.raised_branch here aboveLive branch raises
    obtain ⟨cut, -⟩ := loweredShows.pruned_branch here below removes
    rw [Forest.facts_of_node? live]
    exact ⟨rfl, lowered, way, cut⟩

/-- What was appended to a scope that held nothing of its name is what the name finds there. -/
theorem Shows.finds_appended {after : Tree} {top new : Rose Handle}
    (shows : tree.Shows shape outline) (here : shape.at? position = some top)
    (sees : outline.find? scope = some (position, top.map tree.forest.facts))
    (unnamed : ∀ lower, ReflTransGen tree.forest.IsChild top.label lower →
      tree.name? lower ≠ some entry.name)
    (afterShows : after.Shows (shape.graft [new] position)
      (outline.exchange delta (· ++ [Outline.ofEntry entry]) position)) :
    after.findWithin? scope entry.name = some new.label ∧
      (outline.exchange delta (· ++ [Outline.ofEntry entry]) position).findWithin? scope
          entry.name = some (position ++ [top.children.length], Outline.ofEntry entry) ∧
      after.forest.facts new.label = (Outline.ofEntry entry).label := by
  have noNamesake : ∀ facts ∈ (top.map tree.forest.facts).labels,
      facts.name ≠ (Outline.ofEntry entry).label.name := by
    intro facts member named
    obtain ⟨lower, other, below, rfl⟩ := Rose.mem_labels.mp member
    obtain ⟨target, -, reached, isNamed⟩ := shows.reaches_named here below
    rw [named, Outline.ofEntry_name] at isNamed
    exact unnamed target.label reached isNamed
  have stillSees := Outline.findWithin?_appended delta sees noNamesake
  rw [Outline.ofEntry_name, Rose.children_map, List.length_map] at stillSees
  obtain ⟨target, targetHere, targetFound, shown⟩ := afterShows.findWithin?_eq_some stillSees
  rw [Rose.at?_append, Rose.at?_graft [new] here] at targetHere
  obtain rfl : new = target := by simpa using targetHere
  exact ⟨targetFound, stillSees, by rw [← shown, Rose.label_map]⟩

/-- A deletion of what was just created below a branch that held nothing of its name leaves every
node as it was before the creation. -/
theorem Shows.nodes_restored (shows : tree.Shows shape outline)
    (found : tree.find? scope = some parent) (live : tree.node? parent = some node)
    (branch : node.isLeaf = false) (bare : entry.kind = .function → entry.counts = 0)
    (unnamed : ∀ lower, ReflTransGen tree.forest.IsChild parent lower →
      tree.name? lower ≠ some entry.name)
    (creates : tree.create scope entry = .ok created)
    (deletes : created.tree.delete scope entry.name = .ok deleted) :
    deleted.result = .ok () ∧ ∀ handle, deleted.tree.node? handle = tree.node? handle := by
  obtain ⟨-, position, top, new, grown, here, rfl, sees, grows, up, createdShows⟩ :=
    shows.create_stages found live branch creates
  obtain ⟨targetFound, -, shown⟩ := shows.finds_appended here sees unnamed createdShows
  have lastHere : (top.children ++ [new])[top.children.length]? = some new := by simp
  obtain ⟨result, lowered, down, cut⟩ :=
    createdShows.delete_stages (Rose.at?_graft [new] here) lastHere targetFound deletes
  rw [shown, Outline.ofEntry_counts bare] at down
  obtain ⟨_, topShaped⟩ := shows.shaped.at? here
  obtain ⟨topNode, topLive, -, childLinks, -⟩ := topShaped.top
  have index : top.children.length = topNode.children.length := by rw [childLinks, List.length_map]
  exact ⟨result, grows.grafted.cut_back topLive (up.cancel down) (index ▸ cut)⟩

/-! ### Within the words -/

/-- No word is left when a difference is added to the counters of a node and of everything above it,
nor when it is taken away again. -/
structure HasRoom (tree : Tree) (handle : Handle) (delta : Count) : Prop where
  gain : delta.inRange
  loss : (-delta).inRange
  above : ∀ upper ∈ tree.forest.lineage handle, (tree.forest.facts upper).counts.inRange ∧
    ((tree.forest.facts upper).counts + delta).inRange

/-- With room for it, a creation ends. -/
theorem Shows.create_ends (shows : tree.Shows shape outline)
    (found : tree.find? scope = some parent) (room : tree.HasRoom parent entry.counts) :
    ∃ created, tree.create scope entry = .ok created := by
  refine (shows.create scope entry).2 fun position delta rippled => ?_
  rcases shows.find_cases scope with ⟨absent, -⟩ | ⟨place, top, here, topFound, sees⟩
  · cases absent.symm.trans found
  · obtain rfl : top.label = parent := Option.some.inj (topFound.symm.trans found)
    rw [Outline.ripple, sees] at rippled
    obtain ⟨rfl, rfl⟩ := Prod.mk.inj (Option.some.inj rippled)
    refine ⟨room.gain, room.loss, fun facts onWay => ?_⟩
    rw [← shows.facts, Rose.spine_map] at onWay
    obtain ⟨upper, member, rfl⟩ := List.mem_map.mp onWay
    refine (room.above upper ?_).2
    rw [shows.shaped.lineage here]
    exact List.mem_reverse.mpr member

/-- With room for it, what was created can be deleted. -/
theorem Shows.delete_ends (shows : tree.Shows shape outline)
    (found : tree.find? scope = some parent) (live : tree.node? parent = some node)
    (branch : node.isLeaf = false) (bare : entry.kind = .function → entry.counts = 0)
    (unnamed : ∀ lower, ReflTransGen tree.forest.IsChild parent lower →
      tree.name? lower ≠ some entry.name) (room : tree.HasRoom parent entry.counts)
    (creates : tree.create scope entry = .ok created) :
    ∃ deleted, created.tree.delete scope entry.name = .ok deleted := by
  obtain ⟨-, position, top, new, grown, here, rfl, sees, grows, up, createdShows⟩ :=
    shows.create_stages found live branch creates
  obtain ⟨-, stillSees, -⟩ := shows.finds_appended here sees unnamed createdShows
  refine (createdShows.delete scope entry.name).2 fun place delta rippled => ?_
  rw [Outline.ripple, stillSees, Option.map_some, List.dropLast_concat,
    Outline.ofEntry_counts bare] at rippled
  obtain ⟨rfl, rfl⟩ := Prod.mk.inj (Option.some.inj rippled)
  refine ⟨room.loss, by rw [neg_neg]; exact room.gain, fun facts onWay => ?_⟩
  rw [← createdShows.facts, Rose.spine_map] at onWay
  obtain ⟨upper, member, rfl⟩ := List.mem_map.mp onWay
  have raised := up.facts upper
  rw [if_pos member] at raised
  rw [Rose.spine_graft [new] here] at member
  obtain ⟨upperNode, upperLive⟩ := shows.shaped.live (Rose.mem_labels_of_mem_spine member)
  rw [raised, grows.grafted.facts upperLive, Facts.raise_counts, add_neg_cancel_right]
  refine (room.above upper ?_).1
  rw [shows.shaped.lineage here]
  exact List.mem_reverse.mpr member

/-- A deletion undoes a creation. When a name finds a branch, and nothing in it has the name of an
entry, then creating the entry there and deleting its name there again succeeds and leaves the same
root and the same nodes under the same handles: names, kinds, parents, children and counters. No
counter stands in the way, as long as the counters upward from the branch have room for those of the
entry. -/
theorem deletion_undoes_creation (reachable : tree.Reachable)
    (found : tree.find? scope = some parent) (live : tree.node? parent = some node)
    (branch : node.isLeaf = false) (bare : entry.kind = .function → entry.counts = 0)
    (unnamed : ∀ lower, ReflTransGen tree.forest.IsChild parent lower →
      tree.name? lower ≠ some entry.name) :
    (∀ created, tree.create scope entry = .ok created → created.result = .ok () ∧
      ∀ deleted, created.tree.delete scope entry.name = .ok deleted → deleted.result = .ok () ∧
        deleted.tree.root = tree.root ∧
        (∀ handle, deleted.tree.node? handle = tree.node? handle) ∧
        deleted.tree.forest.size = tree.forest.size) ∧
    (tree.HasRoom parent entry.counts → ∃ created deleted, tree.create scope entry = .ok created ∧
      created.tree.delete scope entry.name = .ok deleted) := by
  obtain ⟨shape, outline, shows⟩ := reachable.shows
  constructor
  · intro created creates
    obtain ⟨createdWell, _⟩ := shows.create_stages found live branch creates
    refine ⟨createdWell, fun deleted deletes => ?_⟩
    obtain ⟨deletedWell, same⟩ :=
      shows.nodes_restored found live branch bare unnamed creates deletes
    obtain ⟨-, ⟨_, createdShows⟩, -, createdRoot, -⟩ := (shows.create scope entry).1 created creates
    obtain ⟨-, ⟨_, deletedShows⟩, -, deletedRoot, -⟩ :=
      (createdShows.delete scope entry.name).1 deleted deletes
    exact ⟨deletedWell, deletedRoot.trans createdRoot, same, shows.size_eq deletedShows same⟩
  · intro room
    obtain ⟨created, creates⟩ := shows.create_ends found room
    obtain ⟨deleted, deletes⟩ := shows.delete_ends found live branch bare unnamed room creates
    exact ⟨created, deleted, creates, deletes⟩

/-- A package with a class of the name of its scope, which has a method of the name of the package,
comes and goes. -/
theorem namesakes_inside_come_and_go :
    let tree := (ofEntry ⟨.module, "p", 0, [⟨.package, "a", 0, []⟩]⟩).tree
    let entry : Entry := ⟨.package, "b", ⟨1, 1⟩, [.ofClass "a" [.function "b"]]⟩
    tree.Reachable ∧ ∃ created deleted, tree.create "a" entry = .ok created ∧
      created.tree.delete "a" "b" = .ok deleted ∧ created.tree.forest.size = 5 ∧
      deleted.tree.forest.size = 2 ∧ ∀ handle, deleted.tree.node? handle = tree.node? handle := by
  intro tree entry
  have reachable : tree.Reachable := ⟨_, .refl⟩
  have found : tree.find? "a" = some 1 := by decide +kernel
  have bare : entry.kind = .function → entry.counts = 0 := nofun
  have unnamed : ∀ lower, ReflTransGen tree.forest.IsChild 1 lower →
      tree.name? lower ≠ some entry.name := by
    intro lower reached
    obtain rfl | ⟨next, ⟨node, live, isChild⟩, -⟩ := reached.cases_head
    · decide +kernel
    · obtain rfl := Option.some.inj ((rfl : tree.forest.node? 1 = _).symm.trans live)
      cases isChild
  have room : tree.HasRoom 1 entry.counts := ⟨by decide, by decide, by decide +kernel⟩
  obtain ⟨undone, ends⟩ := deletion_undoes_creation reachable found rfl rfl bare unnamed
  obtain ⟨created, deleted, creates, deletes⟩ := ends room
  have grew : ((tree.create "a" entry).toOption.any fun created =>
      decide (created.tree.forest.size = 5)) = true := by decide +kernel
  obtain ⟨other, made, size⟩ := Fault.ok_of_any grew
  obtain rfl : other = created := Except.ok.inj (made.symm.trans creates)
  obtain ⟨-, undoes⟩ := undone other creates
  obtain ⟨-, -, same, sizeAgain⟩ := undoes deleted deletes
  exact ⟨reachable, other, deleted, creates, deletes, of_decide_eq_true size,
    sizeAgain.trans (by decide +kernel), same⟩

end Tree

end CodeCensus
