import CodeCensus.Proofs.History
import CodeCensus.Proofs.Refinement

/-!
# Trees over time

A tree evolves by mutations, each on what the one before left behind, whether that succeeded or
not, and by whatever happens to its observers. Every tree that evolves from an entry shows an
outline, so its forest is one shape and its links are those of the shape; what is said here of
outlines, links and handles holds after any number of mutations in any order.
-/

namespace CodeCensus

open Forest (Continues Call)
open Relation (ReflTransGen)

variable {first tree future : Tree} {shape : Rose Handle} {outline : Outline}

namespace Forest

variable {forest : Forest}

/-- The child list of the upper handle names the lower one. -/
def IsChild (forest : Forest) (upper lower : Handle) : Prop :=
  ∃ node, forest.node? upper = some node ∧ lower ∈ node.children

/-- Child lists lead from the top of a shape to every position of it. -/
theorem Shaped.descends {parent : Option Handle} {subshape : Rose Handle} {position : Position}
    (shaped : forest.Shaped parent shape) (here : shape.at? position = some subshape) :
    ReflTransGen forest.IsChild shape.label subshape.label := by
  induction position generalizing shape parent with
  | nil =>
    obtain rfl : shape = subshape := Option.some.inj here
    exact .refl
  | cons index rest inductionHypothesis =>
    obtain ⟨child, found, below⟩ := Option.bind_eq_some_iff.mp here
    have member := List.mem_of_getElem? found
    obtain ⟨node, live, -, childLinks, -⟩ := shaped.top
    refine .head ⟨node, live, ?_⟩ (inductionHypothesis (shaped.child member) below)
    rw [childLinks]
    exact List.mem_map_of_mem member

/-- Child lists do not lead out of a shape. -/
theorem Shaped.mem_of_isChild {parent : Option Handle} {upper lower : Handle}
    (shaped : forest.Shaped parent shape) (member : upper ∈ shape.labels)
    (link : forest.IsChild upper lower) : lower ∈ shape.labels := by
  obtain ⟨position, subshape, here, rfl⟩ := Rose.mem_labels.mp member
  obtain ⟨_, subshaped⟩ := shaped.at? here
  obtain ⟨node, live, -, childLinks, -⟩ := subshaped.top
  obtain ⟨above, aboveLive, inChildren⟩ := link
  obtain rfl : node = above := Option.some.inj (live.symm.trans aboveLive)
  rw [childLinks] at inChildren
  obtain ⟨child, childMember, rfl⟩ := List.mem_map.mp inChildren
  apply Rose.labels_subset here
  obtain ⟨label, children⟩ := subshape
  rw [Rose.labels_mk]
  exact List.mem_cons_of_mem _
    (List.mem_flatMap.mpr ⟨child, childMember, Rose.label_mem_labels child⟩)

/-- The handles of a shape are those that child lists lead to from its top. -/
theorem Shaped.mem_labels_iff {parent : Option Handle} {lower : Handle}
    (shaped : forest.Shaped parent shape) :
    lower ∈ shape.labels ↔ ReflTransGen forest.IsChild shape.label lower := by
  constructor
  · intro member
    obtain ⟨position, subshape, here, rfl⟩ := Rose.mem_labels.mp member
    exact shaped.descends here
  · intro reached
    induction reached with
    | refl => exact Rose.label_mem_labels shape
    | tail _ link inductionHypothesis => exact shaped.mem_of_isChild inductionHypothesis link

/-- Child lists lead from live handles to live handles. -/
theorem WellLinked.reaches_live (linked : forest.WellLinked) {upper lower : Handle} {node : Node}
    (live : forest.node? upper = some node) (reached : ReflTransGen forest.IsChild upper lower) :
    ∃ node, forest.node? lower = some node := by
  induction reached with
  | refl => exact ⟨node, live⟩
  | tail _ link _ =>
    obtain ⟨above, aboveLive, member⟩ := link
    obtain ⟨below, belowLive, -⟩ := linked.children _ above aboveLive _ member
    exact ⟨below, belowLive⟩

private theorem countP_range {α : Type} (items : List α) (test : α → Bool) : items.countP test =
    ((List.range items.length).filter fun index => items[index]?.any test).length := by
  induction items using List.reverseRecOn with
  | nil => rfl
  | append_singleton items item inductionHypothesis =>
    have early : (List.range items.length).filter (fun index => (items ++ [item])[index]?.any test) =
        (List.range items.length).filter fun index => items[index]?.any test := by
      refine List.filter_congr fun index member => ?_
      rw [List.getElem?_append_left (List.mem_range.mp member)]
    rw [List.countP_append, List.length_append, List.length_singleton, List.range_succ,
      List.filter_append, early, List.length_append, inductionHypothesis]
    cases passes : test item <;> simp [passes]

/-- A formed forest has as many nodes as its shapes have handles. -/
theorem Formed.size {shapes : List (Rose Handle)} (formed : forest.Formed shapes) :
    forest.size = (shapes.flatMap Rose.labels).length := by
  have counted := countP_range forest.slots.toList Option.isSome
  rw [Array.countP_toList] at counted
  rw [Forest.size, counted]
  refine List.Perm.length_eq ?_
  refine (List.perm_ext_iff_of_nodup (List.nodup_range.filter _) formed.distinct).mpr ?_
  intro handle
  rw [List.mem_filter]
  constructor
  · rintro ⟨-, present⟩
    obtain ⟨slot, found, occupied⟩ := (Option.any_eq_true _ _).mp present
    obtain ⟨node, rfl⟩ := Option.isSome_iff_exists.mp occupied
    rw [Array.getElem?_toList] at found
    exact formed.exhaustive handle node (by simp [node?, found])
  · intro member
    obtain ⟨shape, shapeMember, inShape⟩ := List.mem_flatMap.mp member
    obtain ⟨node, live⟩ := (formed.shaped shape shapeMember).live inShape
    refine ⟨List.mem_range.mpr (lt_fresh_of_node? live), ?_⟩
    have occupied : forest.slots[handle]? = some (some node) := by
      simpa [node?, Option.join_eq_some_iff] using live
    simp [occupied]

end Forest

namespace Tree

/-- The later trees that mutations and observers can make of a tree. -/
inductive Evolves (first : Tree) : Tree → Prop
  | refl : Evolves first first
  | mutated {tree : Tree} {mutation : Mutation} {outcome : Outcome} (earlier : Evolves first tree)
      (done : tree.mutate mutation = .ok outcome) : Evolves first outcome.tree
  | observed {tree : Tree} (earlier : Evolves first tree) (observers : Observers) :
      Evolves first { tree with observers }

/-- The trees that an entry can evolve to. -/
def Reachable (tree : Tree) : Prop :=
  ∃ entry, (ofEntry entry).tree.Evolves tree

/-- A new tree shows the outline of its entry as a module. -/
theorem ofEntry_shows (entry : Entry) :
    (ofEntry entry).result = .ok () ∧
      ∃ shape, (ofEntry entry).tree.Shows shape (Outline.ofEntry (entry.withKind .module)) := by
  let bare : Tree := ⟨Forest.ofRoot { entry with kind := .module, nested := [] }, 0, .none⟩
  have formed : bare.forest.Formed [⟨0, []⟩] := Forest.formed_ofRoot _
  have live : bare.forest.node? 0 =
      some (.ofEntry { entry with kind := .module, nested := [] } none) := Forest.node?_append _
  have bareShows : bare.Shows ⟨0, []⟩ ⟨⟨.module, entry.name, entry.counts⟩, []⟩ := by
    refine ⟨formed, rfl, rfl, ?_, rfl⟩
    rw [Rose.map_mk, Forest.facts_of_node? live]
    rfl
  obtain ⟨grown, shapes, done, added⟩ := materializeAll_grown
    (fun inner _ tree _ live branch => materialize_grown inner tree live branch) bare live rfl
  have grownShows := bareShows.grown (Rose.at?_nil _) live rfl added
  have made : ofEntry entry = ⟨grown, .ok ()⟩ := by
    unfold ofEntry
    dsimp only
    rw [done]
  have outlines : Outline.ofEntry (entry.withKind .module) =
      Rose.graft (entry.nested.map Outline.ofEntry) [] ⟨⟨.module, entry.name, entry.counts⟩, []⟩ := by
    rw [Entry.withKind, Outline.ofEntry_branch]
    rfl
  rw [made, outlines]
  exact ⟨rfl, ⟨_, grownShows⟩⟩

/-- Observers are no part of what a tree shows. -/
theorem Shows.observed (shows : tree.Shows shape outline) (observers : Observers) :
    Tree.Shows { tree with observers } shape outline :=
  ⟨shows.formed, shows.top, shows.rooted, shows.facts, shows.module⟩

/-- Whatever a tree evolves to shows some outline and continues it under the same root. -/
theorem Shows.evolves (shows : first.Shows shape outline) (evolves : first.Evolves tree) :
    (∃ shape outline, tree.Shows shape outline) ∧ first.forest.Continues tree.forest ∧
      tree.root = first.root := by
  induction evolves with
  | refl => exact ⟨⟨shape, outline, shows⟩, .refl, rfl⟩
  | mutated _ done inductionHypothesis =>
    obtain ⟨⟨_, _, tree_shows⟩, continues, root⟩ := inductionHypothesis
    obtain ⟨_, ⟨_, laterShows⟩, later, sameRoot, -⟩ := (tree_shows.mutate _).1 _ done
    exact ⟨⟨_, _, laterShows⟩, continues.trans later, sameRoot.trans root⟩
  | observed _ observers inductionHypothesis =>
    obtain ⟨⟨_, _, tree_shows⟩, continues, root⟩ := inductionHypothesis
    exact ⟨⟨_, _, tree_shows.observed observers⟩, continues, root⟩

/-- A reachable tree has a shape and an outline. -/
theorem Reachable.shows (reachable : tree.Reachable) :
    ∃ shape outline, tree.Shows shape outline := by
  obtain ⟨entry, evolves⟩ := reachable
  obtain ⟨-, shape, begins⟩ := ofEntry_shows entry
  exact (begins.evolves evolves).1

/-- The handles of a tree are those of its shape, in pre-order. -/
theorem Shows.handles (shows : tree.Shows shape outline) : tree.handles = shape.labels := by
  rw [Tree.handles, shows.rooted, ← shows.top]
  exact shows.shaped.preorder shows.distinct

/-- A new tree shows its entry as a module, and every mutation of a tree that evolved from it is the
mutation of its outline: the result is the planned one, a refused mutation leaves the outline as it
was, and only a counter that leaves its word keeps a mutation from ending. -/
theorem mutations_refine_outlines :
    (∀ entry, (ofEntry entry).result = .ok () ∧
      (ofEntry entry).tree.outline? = some (Outline.ofEntry (entry.withKind .module))) ∧
    ∀ tree : Tree, tree.Reachable → ∃ outline, tree.outline? = some outline ∧ ∀ mutation,
      (∀ outcome, tree.mutate mutation = .ok outcome →
        outcome.result = (outline.mutate mutation).map (fun _ => ()) ∧
        outcome.tree.outline? = some ((outline.mutate mutation).toOption.getD outline)) ∧
      (outline.Fits mutation → ∃ outcome, tree.mutate mutation = .ok outcome) := by
  constructor
  · intro entry
    obtain ⟨made, shape, shows⟩ := ofEntry_shows entry
    exact ⟨made, shows.outline?⟩
  · intro tree reachable
    obtain ⟨shape, outline, shows⟩ := reachable.shows
    refine ⟨outline, shows.outline?, fun mutation => ?_⟩
    obtain ⟨realized, total⟩ := shows.mutate mutation
    refine ⟨fun outcome done => ?_, total⟩
    obtain ⟨result, ⟨later, laterShows⟩, -⟩ := realized outcome done
    exact ⟨result, laterShows.outline?⟩

/-- The first class of a project is counted at its root. -/
theorem first_class_counted : ∃ outcome,
    (ofEntry (.function "main")).tree.mutate
      (.create "main" ⟨.classLike, "A", ⟨0, 1⟩, [.function "f"]⟩) = .ok outcome ∧
    outcome.result = .ok () ∧
    outcome.tree.outline? = some ⟨⟨.module, "main", ⟨0, 1⟩⟩,
      [⟨⟨.classLike, "A", ⟨0, 1⟩⟩, [⟨⟨.function, "f", 0⟩, []⟩]⟩]⟩ := by
  obtain ⟨outline, shown, refined⟩ :=
    mutations_refine_outlines.2 (ofEntry (.function "main")).tree ⟨.function "main", .refl⟩
  obtain rfl : outline = ⟨⟨.module, "main", 0⟩, []⟩ := Option.some.inj (shown.symm.trans rfl)
  obtain ⟨realized, total⟩ := refined (.create "main" ⟨.classLike, "A", ⟨0, 1⟩, [.function "f"]⟩)
  obtain ⟨outcome, done⟩ := total (by
    rintro position delta same
    obtain ⟨rfl, rfl⟩ := Prod.mk.inj (Option.some.inj same)
    decide)
  obtain ⟨result, later⟩ := realized outcome done
  exact ⟨outcome, done, result, later⟩

/-- Links stay sound whatever is done to a forest or a tree. In a forest that starts empty or with
one root, child lists and parent links agree after any calls, no later call changes the kind
or parent of a live node, brings a removed handle back, gives an old handle to a new node, or takes
a root away. In a tree the root stays the same module, and exactly the live nodes are below it. -/
theorem links_stay_sound :
    (∀ (start : Forest) (earlier later : List Call), start.Initial →
      let past := start.replay earlier
      let future := past.replay later
      past.WellLinked ∧ past.Continues future ∧
      (∀ top, past.root = some top → ∃ node, past.node? top = some node ∧ node.parent = none) ∧
      ∀ entry parent grown handle, future.insert entry parent = .ok (grown, handle) →
        past.node? handle = none) ∧
    ∀ (entry : Entry) (tree future : Tree), (ofEntry entry).tree.Evolves tree →
      tree.Evolves future →
      tree.forest.WellLinked ∧ tree.forest.Continues future.forest ∧ future.root = tree.root ∧
      (∃ node, tree.node? tree.root = some node ∧ node.kind = .module ∧ node.parent = none) ∧
      (∀ handle, ReflTransGen tree.forest.IsChild tree.root handle ↔
        ∃ node, tree.node? handle = some node) ∧
      tree.handles.Nodup ∧ tree.handles.length = tree.forest.size ∧
      ∀ handle, handle ∈ tree.handles ↔ ∃ node, tree.node? handle = some node := by
  constructor
  · intro start earlier later initial past future
    obtain ⟨shapes, formed⟩ := initial.formed
    obtain ⟨⟨_, pastFormed⟩, -⟩ := formed.replay earlier
    obtain ⟨-, continues⟩ := pastFormed.replay later
    refine ⟨pastFormed.wellLinked, continues, fun top => pastFormed.root_top, ?_⟩
    intro entry parent grown handle inserted
    rw [Forest.insert_fresh inserted]
    exact Forest.node?_of_fresh_le continues.slots
  · intro entry tree future evolved evolves
    obtain ⟨-, _, begins⟩ := ofEntry_shows entry
    obtain ⟨⟨shape, outline, shows⟩, -⟩ := begins.evolves evolved
    obtain ⟨-, continues, root⟩ := shows.evolves evolves
    have linked := shows.formed.wellLinked
    obtain ⟨top, live, noParent, -⟩ := shows.shaped.top
    have isModule : top.kind = .module := by
      have shown := shows.module
      rw [← shows.facts, Rose.label_map, Forest.facts_of_node? live] at shown
      exact shown
    rw [shows.top] at live
    have member : ∀ handle, handle ∈ shape.labels ↔ ∃ node, tree.node? handle = some node := by
      refine fun handle => ⟨shows.shaped.live, fun ⟨node, live⟩ => ?_⟩
      simpa using shows.formed.exhaustive handle node live
    rw [shows.handles]
    refine ⟨linked, continues, root, ⟨top, live, isModule, noParent⟩, fun handle => ?_,
      shows.distinct, ?_, member⟩
    · refine ⟨linked.reaches_live live, fun isLive => ?_⟩
      obtain ⟨position, subshape, here, rfl⟩ := Rose.mem_labels.mp ((member handle).mpr isLive)
      have down := shows.shaped.descends here
      rwa [shows.top] at down
    · simpa using shows.formed.size.symm

/-- A root, its child, and a call for a child that is gone. -/
theorem detached_child_stays_gone :
    let start := Forest.ofRoot (.function "main")
    let past := start.replay [.insert (.withKind .module (.function "main")) none,
      .insert (.function "f") (some 1), .detach 2]
    start.Initial ∧ past.node? 2 = none ∧
      (past.replay [.insert (.function "f") (some 1), .detach 2]).node? 2 = none ∧
      past.WellLinked ∧ ∃ tree : Tree, (ofEntry (.function "main")).tree.Evolves tree ∧
        tree.forest.WellLinked := by
  intro start past
  have initial : start.Initial := .inr ⟨_, rfl⟩
  obtain ⟨linked, continues, -, -⟩ := links_stay_sound.1 start
    [.insert (.withKind .module (.function "main")) none, .insert (.function "f") (some 1),
      .detach 2] [.insert (.function "f") (some 1), .detach 2] initial
  have gone : past.node? 2 = none := rfl
  exact ⟨initial, gone, continues.retired 2 (by decide) gone, linked, _, .refl,
    (links_stay_sound.2 (.function "main") _ _ .refl .refl).1⟩

end Tree

end CodeCensus
