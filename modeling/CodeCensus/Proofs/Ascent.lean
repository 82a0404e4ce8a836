import CodeCensus.Proofs.Announcement

/-!
# The way up

The walk up from a node follows the parent handles that the nodes keep. A parent was inserted before
its children, so handles fall on the way; the walk comes to no node twice, stops at none but the
root, and ends after as many rounds as there are nodes on it. The names of a path are those of the
way, read downward, and a difference that travels upward is added to the nodes of the way alone.
-/

namespace CodeCensus

open Relation (ReflTransGen)

/-- The node with a difference added to its exact counters. A leaf has none and stays as it is. -/
def Node.raise (delta : Count) (node : Node) : Node :=
  match node.payload with
  | .branch kind counts => { node with payload := .branch kind (counts + delta) }
  | .leaf => node

/-- Adjusting a branch raises it, unless a counter leaves its word. -/
theorem Node.adjust_eq_raise {node : Node} (branch : node.isLeaf = false) (delta : Count) :
    node.adjust delta = if (node.counts + delta).inRange then .ok (node.raise delta)
      else .error .counterOverflow := by
  obtain ⟨name, payload, parent, children⟩ := node
  cases payload with
  | leaf => cases branch
  | branch kind counts =>
    cases fits : (counts + delta).inRange <;>
      simp [Node.adjust, Node.raise, Node.counts, Count.plus, Count.checked, fits]

namespace Forest

variable {forest : Forest} {handle top : Handle} {node : Node} {way : List Handle}

/-- The parent handles lead from a node along a way to a node without a parent. -/
inductive Climbs (forest : Forest) : Handle → List Handle → Handle → Prop
  | top {handle : Handle} {node : Node} (live : forest.node? handle = some node)
      (highest : node.parent = none) : Climbs forest handle [handle] handle
  | up {handle parent top : Handle} {node : Node} {way : List Handle}
      (live : forest.node? handle = some node) (link : node.parent = some parent)
      (onward : Climbs forest parent way top) : Climbs forest handle (handle :: way) top

/-- From every node of a formed forest parent handles lead to the top. -/
theorem Formed.climbs {shapes : List (Rose Handle)} (formed : forest.Formed shapes)
    (live : forest.node? handle = some node) : ∃ way top, forest.Climbs handle way top := by
  -- Handles fall on the way up, so the way is found by recursion on the handle.
  induction handle using Nat.strongRecOn generalizing node with
  | ind handle inductionHypothesis =>
    cases link : node.parent with
    | none => exact ⟨[handle], handle, .top live link⟩
    | some parent =>
      obtain ⟨above, aboveLive, -⟩ := formed.wellLinked.parent handle node parent live link
      have lower : parent < handle := formed.parent_lt ⟨node, live, link⟩
      obtain ⟨way, top, onward⟩ := inductionHypothesis parent lower aboveLive
      exact ⟨handle :: way, top, .up live link onward⟩

namespace Climbs

private theorem head? (climbs : forest.Climbs handle way top) : way.head? = some handle := by
  cases climbs <;> rfl

private theorem getLast? (climbs : forest.Climbs handle way top) : way.getLast? = some top := by
  induction climbs with
  | top => rfl
  | up _ _ onward inductionHypothesis =>
    rw [List.getLast?_cons, inductionHypothesis, Option.getD_some]

private theorem ends (climbs : forest.Climbs handle way top) :
    ∃ highest, forest.node? top = some highest ∧ highest.parent = none := by
  induction climbs with
  | top live highest => exact ⟨_, live, highest⟩
  | up _ _ _ inductionHypothesis => exact inductionHypothesis

private theorem isChain (climbs : forest.Climbs handle way top) : way.IsChain forest.IsParent := by
  induction climbs with
  | top => exact .singleton _
  | up live link onward inductionHypothesis =>
    have next : forest.IsParent _ _ := ⟨_, live, link⟩
    cases onward with
    | top => exact inductionHypothesis.cons_cons next
    | up => exact inductionHypothesis.cons_cons next

/-- The way goes through the node and all its ancestors. -/
theorem mem_iff (climbs : forest.Climbs handle way top) (upper : Handle) :
    upper ∈ way ↔ ReflTransGen forest.IsParent handle upper := by
  induction climbs with
  | top live highest =>
    rw [List.mem_singleton, ReflTransGen.cases_head_iff]
    constructor
    · exact fun same => .inl same.symm
    · rintro (same | ⟨_, ⟨node, found, link⟩, -⟩)
      · exact same.symm
      · obtain rfl := Option.some.inj (live.symm.trans found)
        cases highest.symm.trans link
  | up live link _ inductionHypothesis =>
    rw [List.mem_cons, inductionHypothesis]
    constructor
    · rintro (rfl | reached)
      · exact .refl
      · exact .head ⟨_, live, link⟩ reached
    · intro reached
      rcases ReflTransGen.cases_head reached with same | ⟨_, ⟨node, found, other⟩, reached⟩
      · exact .inl same.symm
      · obtain rfl := Option.some.inj (live.symm.trans found)
        obtain rfl := Option.some.inj (link.symm.trans other)
        exact .inr reached

/-- The walk has ended after as many rounds as there are nodes on the way. -/
theorem climb (climbs : forest.Climbs handle way top) (spare : Nat) :
    forest.climb (way.length + spare) handle = way := by
  induction climbs with
  | top live highest =>
    rw [List.length_singleton, Nat.add_comm, Forest.climb, live]
    simp only [highest]
  | up live link _ inductionHypothesis =>
    rw [List.length_cons, Nat.add_right_comm, Forest.climb, live]
    simp only [link, inductionHypothesis]

section Formed

variable {shapes : List (Rose Handle)}

private theorem le (climbs : forest.Climbs handle way top) (formed : forest.Formed shapes) :
    ∀ upper ∈ way, upper ≤ handle := by
  induction climbs with
  | top => simp
  | up live link _ inductionHypothesis =>
    intro upper member
    rcases List.mem_cons.mp member with rfl | later
    · exact Nat.le_refl _
    · have lower := formed.parent_lt ⟨_, live, link⟩
      exact Nat.le_trans (inductionHypothesis upper later) (Nat.le_of_lt lower)

private theorem nodup (climbs : forest.Climbs handle way top) (formed : forest.Formed shapes) :
    way.Nodup := by
  induction climbs with
  | top => exact List.nodup_singleton _
  | up live link onward inductionHypothesis =>
    refine List.nodup_cons.mpr ⟨fun member => ?_, inductionHypothesis⟩
    have lower := formed.parent_lt ⟨_, live, link⟩
    exact absurd (onward.le formed _ member) (Nat.not_le_of_lt lower)

private theorem length_le (climbs : forest.Climbs handle way top) (formed : forest.Formed shapes) :
    way.length ≤ handle + 1 := by
  induction climbs with
  | top => simp
  | up live link _ inductionHypothesis =>
    have lower := formed.parent_lt ⟨_, live, link⟩
    exact Nat.succ_le_succ (Nat.le_trans inductionHypothesis lower)

/-- The lineage of a node is the way up from it. -/
theorem lineage (climbs : forest.Climbs handle way top) (formed : forest.Formed shapes) :
    forest.lineage handle = way := by
  obtain ⟨spare, enough⟩ := Nat.exists_eq_add_of_le (climbs.length_le formed)
  rw [Forest.lineage, enough]
  exact climbs.climb spare

/-- Everything above a branch is a branch. -/
theorem branch (climbs : forest.Climbs handle way top) (formed : forest.Formed shapes)
    (live : forest.node? handle = some node) (branch : node.isLeaf = false) :
    ∀ upper ∈ way, ∃ above, forest.node? upper = some above ∧ above.isLeaf = false := by
  induction climbs generalizing node with
  | top => simpa using ⟨node, live, branch⟩
  | up found link _ inductionHypothesis =>
    obtain ⟨above, aboveLive, listed⟩ := formed.wellLinked.parent _ _ _ found link
    have aboveBranch : above.isLeaf = false := by
      refine Bool.eq_false_iff.mpr fun leaf => ?_
      simp [formed.wellLinked.terminal _ above aboveLive leaf] at listed
    exact List.forall_mem_cons.mpr
      ⟨⟨node, live, branch⟩, inductionHypothesis aboveLive aboveBranch⟩

end Formed

end Climbs

end Forest

namespace Tree

variable {tree : Tree} {handle : Handle} {node : Node} {delta : Count}
  {way : List Handle}

/-- A difference was added to each node of a way and to no other, and each of them was named to the
observers, in the order of the way. -/
structure RaisedAlong (before after : Tree) (delta : Count) (way : List Handle) : Prop where
  nodes : ∀ other, after.node? other =
    if other ∈ way then (before.node? other).map (Node.raise delta) else before.node? other
  told : after.observers = before.observers.notifyAll (way.map .changed)
  root : after.root = before.root

/-- No counter of a way leaves its word when a difference is added. -/
def FitsAlong (tree : Tree) (delta : Count) (way : List Handle) : Prop :=
  ∀ upper ∈ way, ∀ above ∈ tree.node? upper, (above.counts + delta).inRange

instance (tree : Tree) (delta : Count) (way : List Handle) : Decidable (tree.FitsAlong delta way) :=
  inferInstanceAs (Decidable (∀ upper ∈ way, ∀ above ∈ tree.node? upper,
    (above.counts + delta).inRange = true))

/-- Distinct branches, one after the other, are all raised, unless a counter leaves its word. -/
theorem adjustAll_cases (distinct : way.Nodup) (branches : ∀ upper ∈ way, ∃ above,
      tree.node? upper = some above ∧ above.isLeaf = false) (delta : Count) :
    (tree.FitsAlong delta way → ∃ raised, way.foldlM (adjust delta) tree = .ok raised ∧
      RaisedAlong tree raised delta way) ∧
    (¬tree.FitsAlong delta way → way.foldlM (adjust delta) tree = .error .counterOverflow) := by
  induction way generalizing tree with
  | nil =>
    refine ⟨fun _ => ⟨tree, rfl, fun other => by simp, rfl, rfl⟩, fun overflows => ?_⟩
    exact absurd (by simp [FitsAlong]) overflows
  | cons handle way inductionHypothesis =>
    obtain ⟨notLater, laterDistinct⟩ := List.nodup_cons.mp distinct
    obtain ⟨node, live, branch⟩ := branches handle (by simp)
    let next : Tree :=
      { tree with forest := tree.forest.set handle (node.raise delta) }.notify (.changed handle)
    have lookup : ∀ other, next.node? other = if other = handle then some (node.raise delta)
        else tree.node? other :=
      fun other => Forest.node?_set _ (Forest.lt_fresh_of_node? live)
    have later : ∀ other ∈ way, next.node? other = tree.node? other := by
      intro other member
      rw [lookup, if_neg]
      rintro rfl
      exact notLater member
    have adjusted : tree.adjust delta handle = if (node.counts + delta).inRange then .ok next
        else .error .counterOverflow := by
      rw [adjust, live]
      simp only [node.adjust_eq_raise branch]
      split <;> rfl
    have laterBranches : ∀ other ∈ way, ∃ above, next.node? other = some above ∧
        above.isLeaf = false := by
      intro other member
      rw [later other member]
      exact branches other (List.mem_cons_of_mem _ member)
    obtain ⟨onward, stops⟩ := inductionHypothesis laterDistinct laterBranches
    have fits_iff : tree.FitsAlong delta (handle :: way) ↔
        (node.counts + delta).inRange = true ∧ next.FitsAlong delta way := by
      simp only [FitsAlong, List.forall_mem_cons, live, Option.mem_some_iff, forall_eq']
      exact and_congr_right' (forall₂_congr fun other member => by rw [later other member])
    rw [List.foldlM_cons, adjusted, fits_iff]
    cases fits : (node.counts + delta).inRange with
    | false =>
      refine ⟨fun both => ?_, fun _ => rfl⟩
      cases both.1
    | true =>
      refine ⟨fun both => ?_, fun overflows => stops fun rest => overflows ⟨rfl, rest⟩⟩
      obtain ⟨raised, done, nodes, told, root⟩ := onward both.2
      refine ⟨raised, done, fun other => ?_, told, root⟩
      rw [nodes, lookup]
      by_cases here : other = handle
      · subst here
        simp [notLater, live]
      · simp [here]

/-- The root of a tree is its one node without a parent. -/
theorem Shows.parent_eq_none_iff {shape : Rose Handle} {outline : Outline}
    (shows : tree.Shows shape outline) (live : tree.node? handle = some node) :
    node.parent = none ↔ handle = tree.root := by
  obtain ⟨_, member, position, subshape, here, rfl⟩ := shows.formed.position live
  obtain rfl := List.mem_singleton.mp member
  obtain ⟨top, topLive, noParent, -⟩ := shows.shaped.top
  constructor
  · intro highest
    rcases shows.shaped.parent_at? here live with ⟨rfl, -⟩ | ⟨_, _, _, -, -, -, link, -⟩
    · obtain rfl := Option.some.inj here
      exact shows.top
    · cases highest.symm.trans link
  · intro atRoot
    rw [shows.top, ← atRoot] at topLive
    obtain rfl := Option.some.inj (topLive.symm.trans live)
    exact noParent

/-- The path of a node is the path of its parent, followed by its own name. -/
theorem path_eq {shapes : List (Rose Handle)} (formed : tree.forest.Formed shapes)
    (live : tree.node? handle = some node) :
    tree.path handle = match node.parent with
      | some parent => tree.path parent ++ [node.name]
      | none => [node.name] := by
  obtain ⟨way, top, climbs⟩ := formed.climbs live
  rw [path, climbs.lineage formed]
  cases climbs with
  | top found highest =>
    obtain rfl := Option.some.inj (found.symm.trans live)
    simp [highest, live]
  | up found link onward =>
    obtain rfl := Option.some.inj (found.symm.trans live)
    simp [link, path, onward.lineage formed, live]

/-- In a reachable tree the walk up from a node goes through the node and its ancestors, each of
them once, and ends at the root, which alone has no parent. The path of a node is the path of its
parent, followed by its own name. A difference that travels up from a branch is added to the nodes
of this way and to no other, and the observers hear of each of them, nearest first; it is a fault if
a counter leaves its word. -/
theorem ways_up_reach_the_root (tree : Tree) (reachable : tree.Reachable) (handle : Handle)
    (node : Node) (live : tree.node? handle = some node) :
    let way := tree.forest.lineage handle
    (way.head? = some handle ∧ way.getLast? = some tree.root ∧ way.IsChain tree.forest.IsParent ∧
      way.Nodup ∧ (∀ upper, upper ∈ way ↔ ReflTransGen tree.forest.IsParent handle upper) ∧
      ∀ spare, tree.forest.climb (way.length + spare) handle = way) ∧
    (node.parent = none ↔ handle = tree.root) ∧
    tree.path handle = (match node.parent with
      | some parent => tree.path parent ++ [node.name]
      | none => [node.name]) ∧
    (node.isLeaf = false → ∀ delta, delta ≠ 0 →
      (tree.FitsAlong delta way → ∃ raised, tree.raise handle delta = .ok raised ∧
        RaisedAlong tree raised delta way) ∧
      (¬tree.FitsAlong delta way → tree.raise handle delta = .error .counterOverflow)) := by
  intro way
  obtain ⟨shape, outline, shows⟩ := reachable.shows
  have formed := shows.formed
  obtain ⟨up, top, climbs⟩ := formed.climbs live
  obtain rfl : way = up := climbs.lineage formed
  obtain ⟨highest, topLive, noParent⟩ := climbs.ends
  obtain rfl : top = tree.root := (shows.parent_eq_none_iff topLive).mp noParent
  refine ⟨⟨climbs.head?, climbs.getLast?, climbs.isChain, climbs.nodup formed, climbs.mem_iff,
    climbs.climb⟩, shows.parent_eq_none_iff live, path_eq formed live, ?_⟩
  intro branch delta nonzero
  have travels : tree.raise handle delta = way.foldlM (adjust delta) tree := by
    rw [raise, if_neg (by simpa using nonzero)]
  rw [travels]
  exact adjustAll_cases (climbs.nodup formed) (climbs.branch formed live branch) delta

/-- From a class four nodes lead up to the root. A difference added to the class reaches these four,
not the function in it and not the package beside its own. -/
theorem difference_passes_the_neighbours :
    let tree := (ofEntry ⟨.module, "p", ⟨1, 1⟩, [⟨.package, "a", ⟨1, 1⟩,
      [⟨.sourceFile, "A.java", ⟨1, 1⟩, [.ofClass "A" [.function "f"]]⟩]⟩,
      ⟨.package, "b", 0, []⟩]⟩).tree
    let delta : Count := ⟨2, -1⟩
    tree.Reachable ∧ tree.forest.lineage 3 = [3, 2, 1, 0] ∧
      tree.path 3 = tree.path 2 ++ ["A"] ∧ tree.path 3 = ["p", "a", "A.java", "A"] ∧
      tree.path 0 = ["p"] ∧ ∃ raised, tree.raise 3 delta = .ok raised ∧
        RaisedAlong tree raised delta [3, 2, 1, 0] ∧ raised.node? 4 = tree.node? 4 ∧
        raised.node? 5 = tree.node? 5 ∧ (raised.node? 0).map Node.counts = some ⟨3, 0⟩ := by
  intro tree delta
  have reachable : tree.Reachable := ⟨_, .refl⟩
  have way : tree.forest.lineage 3 = [3, 2, 1, 0] := by decide +kernel
  have fits : tree.FitsAlong delta [3, 2, 1, 0] := by decide +kernel
  obtain ⟨-, -, path, raises⟩ := ways_up_reach_the_root tree reachable 3 _ rfl
  obtain ⟨-, -, rootPath, -⟩ := ways_up_reach_the_root tree reachable 0 _ rfl
  obtain ⟨raised, done, along⟩ := (raises rfl delta (by decide)).1 fits
  refine ⟨reachable, way, path, by decide +kernel, rootPath, raised, done, along, ?_, ?_, ?_⟩
  · rw [along.nodes, if_neg (by decide)]
  · rw [along.nodes, if_neg (by decide)]
  · rw [along.nodes, if_pos (by decide)]
    rfl

end Tree

end CodeCensus
