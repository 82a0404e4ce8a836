import CodeCensus.Proofs.Evolution
import CodeCensus.Tree.Change

/-!
# Mirrors

An observer that wrote down all child lists once can keep them right by what it is told: a mirror
replays changes, each only if it fits what the mirror knows by then. The changes that stages of
mutations tell of carry every mirror that agrees with the forest before to one that agrees with the
forest after.
-/

namespace CodeCensus

open Forest (Grafted Pruned Relabelled)

/-- The child lists that an observer has written down, each with the node it belongs to. -/
structure Mirror where
  entries : List (Handle × List Handle)
deriving Repr

namespace Mirror

variable {mirror : Mirror} {node parent other : Handle}

/-- The child list of a node, if the node is known. -/
def children? (mirror : Mirror) (node : Handle) : Option (List Handle) :=
  (mirror.entries.find? fun entry => entry.1 == node).map Prod.snd

/-- The mirror with a new node that has no children. -/
def learn (mirror : Mirror) (node : Handle) : Mirror :=
  ⟨(node, []) :: mirror.entries⟩

/-- The mirror with another child list for a node. -/
def relink (mirror : Mirror) (node : Handle) (children : List Handle) : Mirror :=
  ⟨mirror.entries.map fun entry => if entry.1 = node then (entry.1, children) else entry⟩

/-- The mirror without some nodes. -/
def forget (mirror : Mirror) (nodes : List Handle) : Mirror :=
  ⟨mirror.entries.filter fun entry => entry.1 ∉ nodes⟩

/-- A node and what the mirror knows below it, down to the given number of levels. -/
def branchLevels (mirror : Mirror) : Nat → Handle → List Handle
  | 0, _ => []
  | levels + 1, node =>
    node :: ((mirror.children? node).getD []).flatMap (mirror.branchLevels levels)

/-- A node and everything that the mirror knows below it. A way down names each known node at most
once, so their number bounds the levels. -/
def branch (mirror : Mirror) (node : Handle) : List Handle :=
  mirror.branchLevels mirror.entries.length node

/-- The mirror after a change. An insertion must name a known parent, an index among its children
and an unknown node, a removal must find the node at its index, and any other change must name a
known node. -/
def apply (mirror : Mirror) : Change Handle → Option Mirror
  | .inserted parent index node => do
    let children ← mirror.children? parent
    guard (index ≤ children.length ∧ mirror.children? node = none)
    return (mirror.relink parent (children.insertIdx index node)).learn node
  | .removed parent index node => do
    let children ← mirror.children? parent
    guard (children[index]? = some node)
    return (mirror.relink parent (children.eraseIdx index)).forget (mirror.branch node)
  | .changed node => do
    let _ ← mirror.children? node
    return mirror

/-- The mirror after some changes, if each of them applies when it is its turn. -/
def replay (mirror : Mirror) (changes : List (Change Handle)) : Option Mirror :=
  changes.foldlM apply mirror

private theorem children?_learn : (mirror.learn node).children? other =
    if other = node then some [] else mirror.children? other := by
  by_cases same : other = node
  · subst same
    simp [children?, learn]
  · simp [children?, learn, same, Ne.symm same]

private theorem children?_relink (children : List Handle) :
    (mirror.relink node children).children? other =
    if other = node then (mirror.children? node).map fun _ => children
    else mirror.children? other := by
  have sameKeys : (fun entry : Handle × List Handle => entry.1 == other) ∘
      (fun entry => if entry.1 = node then (entry.1, children) else entry) =
        fun entry => entry.1 == other := by
    funext entry
    simp only [Function.comp_apply]
    split <;> rfl
  rw [children?, relink, List.find?_map, sameKeys, children?, children?]
  cases found : mirror.entries.find? fun entry => entry.1 == other with
  | none =>
    by_cases same : other = node
    · subst same
      simp [found]
    · simp [same]
  | some entry =>
    have key : entry.1 = other := by simpa using List.find?_some found
    by_cases same : other = node
    · subst same
      simp [found, key]
    · simp [same, key]

private theorem children?_forget (nodes : List Handle) : (mirror.forget nodes).children? other =
    if other ∈ nodes then none else mirror.children? other := by
  rw [children?, forget, List.find?_filter]
  by_cases gone : other ∈ nodes
  · rw [if_pos gone, Option.map_eq_none_iff, List.find?_eq_none]
    rintro entry - found
    simp only [decide_not, Bool.not_eq_eq_eq_not, Bool.not_true, decide_eq_false_iff_not, beq_iff_eq,
      Bool.decide_and, Bool.and_eq_true, decide_eq_true_eq] at found
    exact found.1 (found.2 ▸ gone)
  · rw [if_neg gone, children?]
    congr 1
    apply List.find?_congr
    intro entry _
    by_cases key : entry.1 = other
    · simp [key, gone]
    · simp [key]

/-! ### Agreement -/

/-- The mirror knows the live nodes of a forest with their child lists, and no others. -/
def Agrees (mirror : Mirror) (forest : Forest) : Prop :=
  ∀ node, mirror.children? node = (forest.node? node).map Node.children

/-- The child lists of all nodes of a tree. -/
def of (tree : Tree) : Mirror :=
  ⟨tree.handles.map fun handle => (handle, tree.children handle)⟩

/-- The mirror of a tree agrees with it. -/
theorem of_agrees {tree : Tree} {shape : Rose Handle} {outline : Outline}
    (shows : tree.Shows shape outline) : (of tree).Agrees tree.forest := by
  intro node
  have sameTest : (fun entry : Handle × List Handle => entry.1 == node) ∘
      (fun handle => (handle, tree.children handle)) = fun handle => handle == node := rfl
  rw [children?, of, List.find?_map, sameTest, Option.map_map]
  cases live : tree.forest.node? node with
  | some found =>
    have member : node ∈ tree.handles := by
      rw [shows.handles]
      simpa using shows.formed.exhaustive node found live
    have passes : (tree.handles.find? fun handle => handle == node).isSome :=
      List.find?_isSome.mpr ⟨node, member, beq_self_eq_true node⟩
    obtain ⟨handle, here⟩ := Option.isSome_iff_exists.mp passes
    have passed := List.find?_some here
    rw [here, eq_of_beq passed]
    simp [Tree.children, Tree.node?, live]
  | none =>
    have absent : tree.handles.find? (fun handle => handle == node) = none := by
      rw [List.find?_eq_none]
      intro handle member same
      rw [shows.handles] at member
      obtain ⟨found, stillLive⟩ := shows.shaped.live member
      rw [eq_of_beq same, live] at stillLive
      cases stillLive
    simp [absent]

private theorem mem_keys {children : List Handle} (known : mirror.children? node = some children) :
    node ∈ mirror.entries.map Prod.fst := by
  obtain ⟨entry, found, -⟩ := Option.map_eq_some_iff.mp known
  have key : entry.1 = node := by simpa using List.find?_some found
  exact key ▸ List.mem_map_of_mem (List.mem_of_find?_eq_some found)

section Branches

variable {forest : Forest} {above : Option Handle} {shape : Rose Handle}

private theorem branchLevels_of_shaped (agrees : mirror.Agrees forest)
    (shaped : forest.Shaped above shape)
    {levels : Nat} (enough : shape.labels.length ≤ levels) :
    mirror.branchLevels levels shape.label = shape.labels := by
  induction shape using Rose.induct generalizing above levels with
  | node handle below inductionHypothesis =>
    obtain ⟨node, live, -, childLinks, -⟩ := shaped.top
    rw [Rose.labels_mk, List.length_cons] at enough
    obtain ⟨levels, rfl⟩ : ∃ fewer, levels = fewer + 1 := ⟨levels - 1, by omega⟩
    have each : ∀ child ∈ below, mirror.branchLevels levels child.label = child.labels := by
      intro child member
      apply inductionHypothesis child member (shaped.child member)
      have part : child.labels.length ≤ (below.flatMap Rose.labels).length :=
        (List.sublist_flatten_of_mem (List.mem_map_of_mem member)).length_le
      omega
    have listed : mirror.children? handle = some (below.map Rose.label) := by
      rw [agrees, live, Option.map_some, childLinks]
    rw [branchLevels, listed, Option.getD_some, List.flatMap_map, Rose.labels_mk]
    congr 1
    exact List.flatMap_congr each

/-- The branch below a node is its shape. -/
theorem branch_of_shaped (agrees : mirror.Agrees forest) (shaped : forest.Shaped above shape)
    (distinct : shape.labels.Nodup) : mirror.branch shape.label = shape.labels := by
  apply branchLevels_of_shaped agrees shaped
  have known : shape.labels ⊆ mirror.entries.map Prod.fst := by
    intro handle member
    obtain ⟨node, live⟩ := shaped.live member
    apply mem_keys
    rw [agrees, live, Option.map_some]
  simpa using distinct.length_le_of_subset known

end Branches

/-! ### Stages -/

end Mirror

/-- Some changes carry every mirror of one forest to a mirror of another. -/
def Forest.Carries (before after : Forest) (changes : List (Change Handle)) : Prop :=
  ∀ mirror : Mirror, mirror.Agrees before →
    ∃ later, mirror.replay changes = some later ∧ later.Agrees after

namespace Forest

variable {before middle after forest : Forest} {parent : Handle}

/-- The empty list of changes carries a forest to itself. -/
theorem Carries.refl : Carries before before [] :=
  fun mirror agrees => ⟨mirror, rfl, agrees⟩

/-- Changes that carry a forest to a second and on to a third carry it to the third. -/
theorem Carries.trans {first second : List (Change Handle)} (firstly : Carries before middle first)
    (secondly : Carries middle after second) : Carries before after (first ++ second) := by
  intro mirror agrees
  obtain ⟨between, replayed, stillAgrees⟩ := firstly mirror agrees
  obtain ⟨later, replayedOn, finallyAgrees⟩ := secondly between stillAgrees
  refine ⟨later, ?_, finallyAgrees⟩
  rw [Mirror.replay, List.foldlM_append]
  exact Option.bind_eq_some_iff.mpr ⟨between, replayed, replayedOn⟩

/-- A single change carries mirrors when it applies to them. -/
theorem carries_of_apply {change : Change Handle} (each : ∀ mirror : Mirror, mirror.Agrees before →
    ∃ later, mirror.apply change = some later ∧ later.Agrees after) :
    Carries before after [change] := by
  intro mirror agrees
  obtain ⟨later, applied, finallyAgrees⟩ := each mirror agrees
  refine ⟨later, ?_, finallyAgrees⟩
  rw [Mirror.replay, List.foldlM_cons]
  exact Option.bind_eq_some_iff.mpr ⟨later, applied, rfl⟩

/-- Mirrors take in a new node behind the children of its parent. -/
theorem carries_inserted {node : Node} {entry : Entry} {handle : Handle}
    (live : before.node? parent = some node)
    (inserted : before.insert entry (some parent) = .ok (after, handle)) :
    Carries before after [.inserted parent node.children.length handle] := by
  obtain rfl := insert_fresh inserted
  have branch : node.isLeaf = false := by
    by_contra leaf
    rw [Bool.not_eq_false] at leaf
    simp [insert, live, leaf] at inserted
  obtain ⟨_, done, grafted, planted, slots⟩ := insert_grafted live branch entry
  obtain ⟨rfl, -⟩ := Prod.mk.inj (Except.ok.inj (inserted.symm.trans done))
  have inside := lt_fresh_of_node? live
  apply carries_of_apply
  intro mirror agrees
  have knownParent : mirror.children? parent = some node.children := by
    rw [agrees, live, Option.map_some]
  have unknown : mirror.children? before.fresh = none := by
    rw [agrees, node?_of_fresh_le (Nat.le_refl _), Option.map_none]
  refine ⟨(mirror.relink parent (node.children ++ [before.fresh])).learn before.fresh, ?_, ?_⟩
  · simp [Mirror.apply, knownParent, unknown]
  · intro other
    rw [Mirror.children?_learn, Mirror.children?_relink, knownParent, agrees other]
    by_cases new : other = before.fresh
    · subst new
      rw [if_pos rfl, planted]
      rfl
    · rw [if_neg new]
      by_cases isParent : other = parent
      · subst isParent
        rw [if_pos rfl, grafted.parentNode, live]
        rfl
      · rw [if_neg isParent]
        by_cases old : other < before.fresh
        · rw [grafted.others other old isParent]
        · have beyond := Nat.le_of_not_lt old
          have later : after.fresh ≤ other := by
            rw [slots]
            exact Nat.lt_of_le_of_ne beyond (Ne.symm new)
          rw [node?_of_fresh_le beyond, node?_of_fresh_le later]

/-- Mirrors keep their lists when a node is named that changed its name or counters. -/
theorem carries_relabelled {handle : Handle} {node : Node} (live : before.node? handle = some node)
    (relabelled : Relabelled before after) : Carries before after [.changed handle] := by
  apply carries_of_apply
  intro mirror agrees
  refine ⟨mirror, ?_, fun other => ?_⟩
  · have known : mirror.children? handle = some node.children := by
      rw [agrees, live, Option.map_some]
    simp [Mirror.apply, known]
  · have same := congrArg (Option.map fun links => links.2.1) (relabelled.links other)
    simp only [Option.map_map, Function.comp_def, Node.links] at same
    rw [agrees other]
    exact same.symm

/-- Mirrors find a removed node at its index, and drop all below it. -/
theorem carries_pruned {shape subshape child : Rose Handle} {position : Position} {index : Nat}
    (shaped : before.Shaped none shape) (distinct : shape.labels.Nodup)
    (here : shape.at? position = some subshape) (below : subshape.children[index]? = some child)
    (pruned : Pruned before after subshape.label index child) :
    Carries before after [.removed subshape.label index child.label] := by
  obtain ⟨_, subshaped⟩ := shaped.at? here
  obtain ⟨node, live, -, childLinks, -⟩ := subshaped.top
  have childShaped := subshaped.child (List.mem_of_getElem? below)
  have down : shape.at? (position ++ [index]) = some child := by
    simp [Rose.at?_append, here, below]
  have childDistinct := Rose.distinct_of_at? distinct down
  have atIndex : node.children[index]? = some child.label := by simp [childLinks, below]
  apply carries_of_apply
  intro mirror agrees
  have known : mirror.children? subshape.label = some node.children := by
    rw [agrees, live, Option.map_some]
  have branch := Mirror.branch_of_shaped agrees childShaped childDistinct
  refine ⟨(mirror.relink subshape.label (node.children.eraseIdx index)).forget child.labels, ?_, ?_⟩
  · simp [Mirror.apply, known, atIndex, branch]
  · intro other
    rw [Mirror.children?_forget, Mirror.children?_relink, known]
    by_cases gone : other ∈ child.labels
    · rw [if_pos gone, pruned.removed other gone, Option.map_none]
    · rw [if_neg gone]
      by_cases isParent : other = subshape.label
      · subst isParent
        rw [if_pos rfl, pruned.parentNode, live]
        rfl
      · rw [if_neg isParent, agrees other, pruned.others other gone isParent]

end Forest

end CodeCensus
