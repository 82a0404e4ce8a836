import CodeCensus.Proofs.Rose

/-!
# Changing a tree at a position

What `Rose.amend` does to labels, to their number, and to images of the tree. Everything off the way
to the position stays, so two trees that agree there can be compared at the position alone.
-/

namespace CodeCensus.Rose

open scoped List

variable {α β : Type} {tree subtree : Rose α} {position : Position}

/-- The changed subtree is found where the old one was. -/
theorem at?_amend (way : α → α) (change : Rose α → Rose α)
    (here : tree.at? position = some subtree) :
    (tree.amend way change position).at? position = some (change subtree) := by
  induction position generalizing tree with
  | nil =>
    obtain rfl : tree = subtree := Option.some.inj here
    rfl
  | cons index rest inductionHypothesis =>
    obtain ⟨child, found, below⟩ := Option.bind_eq_some_iff.mp here
    cases tree
    simp only [amend, at?_cons, List.getElem?_modify_eq, found]
    exact inductionHypothesis below

/-- Two changes at one position are one. -/
theorem amend_amend (firstWay secondWay : α → α) (first second : Rose α → Rose α)
    (tree : Rose α) (position : Position) :
    (tree.amend firstWay first position).amend secondWay second position =
      tree.amend (secondWay ∘ firstWay) (second ∘ first) position := by
  induction position generalizing tree with
  | nil => rfl
  | cons index rest inductionHypothesis =>
    cases tree
    simp only [amend, List.modify_modify_eq, Function.comp_apply, Rose.mk.injEq, true_and]
    congr 1
    funext child
    exact inductionHypothesis child

/-- Only what a change does to the subtree at the position matters. -/
theorem amend_congr {way : α → α} {first second : Rose α → Rose α}
    (here : tree.at? position = some subtree) (same : first subtree = second subtree) :
    tree.amend way first position = tree.amend way second position := by
  induction position generalizing tree with
  | nil =>
    obtain rfl : tree = subtree := Option.some.inj here
    exact same
  | cons index rest inductionHypothesis =>
    obtain ⟨child, found, below⟩ := Option.bind_eq_some_iff.mp here
    obtain ⟨label, children⟩ := tree
    obtain ⟨before, after, rfl, rfl⟩ := children_split found
    simp only [amend, modify_split, inductionHypothesis below]

/-- An amendment that leaves the label of the amended subtree leaves that of the tree. -/
theorem label_amend {change : Rose α → Rose α} (here : tree.at? position = some subtree)
    (same : (change subtree).label = subtree.label) :
    (tree.amend id change position).label = tree.label := by
  cases position with
  | nil =>
    obtain rfl : tree = subtree := Option.some.inj here
    exact same
  | cons index rest =>
    cases tree
    rfl

/-- A change may be made before or after relabelling. -/
theorem map_amend {image : α → β} {way : α → α} {change : Rose α → Rose α} {way' : β → β}
    {change' : Rose β → Rose β} (here : tree.at? position = some subtree)
    (ways : ∀ label, image (way label) = way' (image label))
    (changes : (change subtree).map image = change' (subtree.map image)) :
    (tree.amend way change position).map image =
      (tree.map image).amend way' change' position := by
  induction position generalizing tree with
  | nil =>
    obtain rfl : tree = subtree := Option.some.inj here
    exact changes
  | cons index rest inductionHypothesis =>
    obtain ⟨child, found, below⟩ := Option.bind_eq_some_iff.mp here
    obtain ⟨label, children⟩ := tree
    obtain ⟨before, after, rfl, rfl⟩ := children_split found
    have later := modify_split (amend way' change' rest) (before.map (map image))
      (after.map (map image)) (child.map image)
    rw [List.length_map] at later
    simp only [amend, modify_split, map_mk, List.map_append, List.map_cons, ways, later,
      inductionHypothesis below]

/-- A change at a position trades the labels of the old subtree for those of the new one. -/
theorem labels_amend (change : Rose α → Rose α) (here : tree.at? position = some subtree) :
    (tree.amend id change position).labels ++ subtree.labels ~
      tree.labels ++ (change subtree).labels := by
  induction position generalizing tree with
  | nil =>
    obtain rfl : tree = subtree := Option.some.inj here
    exact List.perm_append_comm
  | cons index rest inductionHypothesis =>
    obtain ⟨child, found, below⟩ := Option.bind_eq_some_iff.mp here
    obtain ⟨label, children⟩ := tree
    obtain ⟨before, after, rfl, rfl⟩ := children_split found
    have traded := inductionHypothesis below
    simp only [amend, modify_split, labels_mk, List.flatMap_append, List.flatMap_cons, id_eq,
      List.cons_append, List.append_assoc, List.perm_cons]
    refine List.Perm.append_left _ ?_
    calc (child.amend id change rest).labels ++ (after.flatMap labels ++ subtree.labels)
        ~ (child.amend id change rest).labels ++ (subtree.labels ++ after.flatMap labels) :=
          List.Perm.append_left _ List.perm_append_comm
      _ ~ (child.labels ++ (change subtree).labels) ++ after.flatMap labels := by
          rw [← List.append_assoc]
          exact traded.append_right _
      _ ~ child.labels ++ (after.flatMap labels ++ (change subtree).labels) := by
          rw [List.append_assoc]
          exact List.Perm.append_left _ List.perm_append_comm

/-! ### Adding and removing children -/

/-- The tree with more children, behind the others, at a position. -/
def graft (grown : List (Rose α)) : Position → Rose α → Rose α :=
  amend id fun tree => ⟨tree.label, tree.children ++ grown⟩

/-- The tree without one of the children at a position. -/
def prune (index : Nat) : Position → Rose α → Rose α :=
  amend id fun tree => ⟨tree.label, tree.children.eraseIdx index⟩

@[simp] theorem label_graft (grown : List (Rose α)) (here : tree.at? position = some subtree) :
    (tree.graft grown position).label = tree.label :=
  label_amend here rfl

@[simp] theorem label_prune (index : Nat) (here : tree.at? position = some subtree) :
    (tree.prune index position).label = tree.label :=
  label_amend here rfl

/-- Where something was grafted stands the old subtree with more children. -/
theorem at?_graft (grown : List (Rose α)) (here : tree.at? position = some subtree) :
    (tree.graft grown position).at? position =
      some ⟨subtree.label, subtree.children ++ grown⟩ :=
  at?_amend id _ here

/-- Where a child was cut off stands the old subtree without it. -/
theorem at?_prune (index : Nat) (here : tree.at? position = some subtree) :
    (tree.prune index position).at? position =
      some ⟨subtree.label, subtree.children.eraseIdx index⟩ :=
  at?_amend id _ here

/-- A graft adds the labels of what is grafted. -/
theorem labels_graft (grown : List (Rose α)) (here : tree.at? position = some subtree) :
    (tree.graft grown position).labels ~ tree.labels ++ grown.flatMap labels := by
  have traded := labels_amend (fun node => ⟨node.label, node.children ++ grown⟩) here
  have grew : labels ⟨subtree.label, subtree.children ++ grown⟩ =
      subtree.labels ++ grown.flatMap labels := by
    cases subtree
    simp
  refine (List.perm_append_right_iff subtree.labels).mp (traded.trans ?_)
  calc tree.labels ++ labels ⟨subtree.label, subtree.children ++ grown⟩
      ~ tree.labels ++ (grown.flatMap labels ++ subtree.labels) := by
        rw [grew]
        exact List.Perm.append_left _ List.perm_append_comm
    _ ~ tree.labels ++ grown.flatMap labels ++ subtree.labels := by rw [List.append_assoc]

/-- A cut takes the labels of what is cut off. -/
theorem labels_prune {index : Nat} {child : Rose α} (here : tree.at? position = some subtree)
    (found : subtree.children[index]? = some child) :
    tree.labels ~ (tree.prune index position).labels ++ child.labels := by
  have traded := labels_amend (fun node => ⟨node.label, node.children.eraseIdx index⟩) here
  obtain ⟨top, children⟩ := subtree
  obtain ⟨before, after, rfl, rfl⟩ := children_split found
  have shrank : labels ⟨top, before ++ child :: after⟩ ~
      labels ⟨top, (before ++ child :: after).eraseIdx before.length⟩ ++ child.labels := by
    rw [List.eraseIdx_append_of_length_le (Nat.le_refl _), Nat.sub_self, List.eraseIdx_cons_zero]
    simp only [labels_mk, List.flatMap_append, List.flatMap_cons, List.cons_append,
      List.append_assoc, List.perm_cons]
    exact List.Perm.append_left _ List.perm_append_comm
  refine (List.perm_append_right_iff _).mp (traded.symm.trans ?_)
  calc (tree.prune before.length position).labels ++ labels ⟨top, before ++ child :: after⟩
      ~ (tree.prune before.length position).labels ++
          (child.labels ++ labels ⟨top, (before ++ child :: after).eraseIdx before.length⟩) :=
        List.Perm.append_left _ (shrank.trans List.perm_append_comm)
    _ ~ (tree.prune before.length position).labels ++ child.labels ++
          labels ⟨top, (before ++ child :: after).eraseIdx before.length⟩ := by
        rw [List.append_assoc]

/-! ### The way to a position -/

/-- The labels on the way to a position are labels of the tree. -/
theorem mem_labels_of_mem_spine {label : α} (member : label ∈ tree.spine position) :
    label ∈ tree.labels := by
  induction position generalizing tree with
  | nil =>
    obtain rfl : label = tree.label := List.mem_singleton.mp member
    exact label_mem_labels tree
  | cons index rest inductionHypothesis =>
    rcases List.mem_cons.mp member with rfl | below
    · exact label_mem_labels tree
    · cases found : tree.children[index]? with
      | none => simp [found] at below
      | some child =>
        rw [found] at below
        have there : tree.at? [index] = some child := by simp [found]
        exact labels_subset there (inductionHypothesis below)

/-- One step further down adds one label to the way. -/
theorem spine_append {index : Nat} {child : Rose α} (here : tree.at? position = some subtree)
    (below : subtree.children[index]? = some child) :
    tree.spine (position ++ [index]) = tree.spine position ++ [child.label] := by
  induction position generalizing tree with
  | nil =>
    obtain rfl : tree = subtree := Option.some.inj here
    simp [spine, below]
  | cons next rest inductionHypothesis =>
    obtain ⟨middle, found, further⟩ := Option.bind_eq_some_iff.mp here
    simp [spine, found, inductionHypothesis further]

/-- The way to a position shows in an image of the tree. -/
theorem spine_map (image : α → β) (tree : Rose α) (position : Position) :
    (tree.map image).spine position = (tree.spine position).map image := by
  induction position generalizing tree with
  | nil => simp [spine]
  | cons index rest inductionHypothesis =>
    cases found : tree.children[index]? with
    | none => simp [spine, found]
    | some child => simp [spine, found, inductionHypothesis]

/-- More children at a position do not change the way there. -/
theorem spine_graft (grown : List (Rose α)) (here : tree.at? position = some subtree) :
    (tree.graft grown position).spine position = tree.spine position := by
  induction position generalizing tree with
  | nil => rfl
  | cons index rest inductionHypothesis =>
    obtain ⟨child, found, below⟩ := Option.bind_eq_some_iff.mp here
    have later := inductionHypothesis below
    obtain ⟨top, children⟩ := tree
    rw [graft] at later
    simp only [graft, amend, spine, List.getElem?_modify_eq, found, id_eq]
    exact congrArg _ later

/-- The way to a subtree ends at its own label. -/
theorem label_mem_spine (here : tree.at? position = some subtree) :
    subtree.label ∈ tree.spine position := by
  induction position generalizing tree with
  | nil =>
    obtain rfl : tree = subtree := Option.some.inj here
    exact List.mem_singleton_self _
  | cons index rest inductionHypothesis =>
    obtain ⟨child, found, below⟩ := Option.bind_eq_some_iff.mp here
    simp [spine, found, inductionHypothesis below]

/-- The labels of a subtree below its own are off the way to it. -/
theorem not_mem_spine_of_child {child : Rose α} {label : α} (distinct : tree.labels.Nodup)
    (here : tree.at? position = some subtree) (below : child ∈ subtree.children)
    (member : label ∈ child.labels) : label ∉ tree.spine position := by
  induction position generalizing tree with
  | nil =>
    obtain rfl : tree = subtree := Option.some.inj here
    obtain ⟨root, children⟩ := tree
    rw [labels_mk, List.nodup_cons] at distinct
    rintro onSpine
    obtain rfl : label = root := List.mem_singleton.mp onSpine
    exact distinct.1 (List.mem_flatMap.mpr ⟨child, below, member⟩)
  | cons index rest inductionHypothesis =>
    obtain ⟨middle, found, further⟩ := Option.bind_eq_some_iff.mp here
    obtain ⟨root, children⟩ := tree
    have inMiddle : label ∈ middle.labels := by
      obtain ⟨lower, there⟩ := List.mem_iff_getElem?.mp below
      have downTo : middle.at? (rest ++ [lower]) = some child := by
        simp [at?_append, further, there]
      exact labels_subset downTo member
    have middleMember : middle ∈ children := List.mem_of_getElem? found
    rw [labels_mk, List.nodup_cons] at distinct
    have onward : label ∉ middle.spine rest :=
      inductionHypothesis ((List.nodup_flatMap.mp distinct.2).1 middle middleMember) further
    intro onSpine
    simp only [spine, found, List.mem_cons] at onSpine
    rcases onSpine with rfl | onward'
    · exact distinct.1 (List.mem_flatMap.mpr ⟨middle, middleMember, inMiddle⟩)
    · exact onward onward'

/-- Distinct labels below a node with a chosen child: the siblings share nothing with the child, and
the top is in neither. -/
theorem distinct_split {top : α} {before after : List (Rose α)} {child : Rose α}
    (distinct : (labels ⟨top, before ++ child :: after⟩).Nodup) :
    top ∉ child.labels ∧ child.labels.Nodup ∧ ∀ sibling ∈ before ++ after,
      ∀ label ∈ sibling.labels, label ≠ top ∧ label ∉ child.labels := by
  have rearranged : labels ⟨top, before ++ child :: after⟩ ~
      top :: (child.labels ++ (before ++ after).flatMap labels) := by
    rw [labels_mk, ← List.flatMap_cons]
    exact (List.perm_middle.flatMap_right labels).cons top
  have apart := rearranged.nodup_iff.mp distinct
  rw [List.nodup_cons, List.mem_append, not_or, List.nodup_append] at apart
  obtain ⟨⟨notChild, notSibling⟩, childDistinct, -, disjoint⟩ := apart
  refine ⟨notChild, childDistinct, fun sibling member label inSibling => ⟨?_, fun inChild => ?_⟩⟩
  · rintro rfl
    exact notSibling (List.mem_flatMap.mpr ⟨sibling, member, inSibling⟩)
  · exact disjoint label inChild label
      (List.mem_flatMap.mpr ⟨sibling, member, inSibling⟩) rfl

/-- Two images of a tree of distinct labels that differ only on the way to a position and below it
are one change apart. -/
theorem map_along (image later : α → β) (way : β → β) (distinct : tree.labels.Nodup)
    (here : tree.at? position = some subtree)
    (ways : ∀ label ∈ tree.spine position, label ∉ subtree.labels →
      later label = way (image label))
    (others : ∀ label ∈ tree.labels, label ∉ tree.spine position → label ∉ subtree.labels →
      later label = image label) :
    tree.map later = (tree.map image).amend way (fun _ => subtree.map later) position := by
  induction position generalizing tree with
  | nil =>
    obtain rfl : tree = subtree := Option.some.inj here
    rfl
  | cons index rest inductionHypothesis =>
    obtain ⟨child, found, below⟩ := Option.bind_eq_some_iff.mp here
    obtain ⟨top, children⟩ := tree
    obtain ⟨before, after, rfl, rfl⟩ := children_split found
    obtain ⟨notChild, childDistinct, siblings⟩ := distinct_split distinct
    have spineEq : spine ⟨top, before ++ child :: after⟩ (before.length :: rest) =
        top :: child.spine rest := by simp [spine]
    have inChild : ∀ label ∈ subtree.labels, label ∈ child.labels :=
      fun label => labels_subset below
    rw [spineEq] at ways others
    have atTop : later top = way (image top) :=
      ways top List.mem_cons_self fun member => notChild (inChild top member)
    -- Nothing in a sibling is on the way or below the position.
    have onSibling : ∀ sibling ∈ before ++ after, sibling.map later = sibling.map image := by
      refine fun sibling member => map_congr fun label inSibling => ?_
      obtain ⟨notTop, outside⟩ := siblings sibling member label inSibling
      refine others label ?_ ?_ fun inSubtree => outside (inChild label inSubtree)
      · have inTree : label ∈ (before ++ after).flatMap labels :=
          List.mem_flatMap.mpr ⟨sibling, member, inSibling⟩
        simp only [List.flatMap_append, List.mem_append] at inTree
        simp only [labels_mk, List.flatMap_append, List.flatMap_cons, List.mem_cons,
          List.mem_append]
        tauto
      · rw [List.mem_cons, not_or]
        exact ⟨notTop, fun onWay => outside (mem_labels_of_mem_spine onWay)⟩
    have onChild : child.map later =
        (child.map image).amend way (fun _ => subtree.map later) rest := by
      refine inductionHypothesis childDistinct below ?_ ?_
      · exact fun label onWay => ways label (List.mem_cons_of_mem _ onWay)
      · intro label member offWay
        refine others label (by simp [member]) ?_
        rw [List.mem_cons, not_or]
        refine ⟨?_, offWay⟩
        rintro rfl
        exact notChild member
    have onBefore : before.map (map later) = before.map (map image) :=
      List.map_congr_left fun sibling member => onSibling sibling (List.mem_append_left _ member)
    have onAfter : after.map (map later) = after.map (map image) :=
      List.map_congr_left fun sibling member => onSibling sibling (List.mem_append_right _ member)
    have placed := modify_split (amend way (fun _ => subtree.map later) rest)
      (before.map (map image)) (after.map (map image)) (child.map image)
    rw [List.length_map] at placed
    rw [map_mk, map_mk, List.map_append, List.map_cons, onBefore, onAfter, onChild, atTop,
      List.map_append, List.map_cons, amend, placed]

/-- In a tree of distinct labels, changing the images of the labels on the way to a position is a
change of the image tree at that position. -/
theorem map_spine [DecidableEq α] (image : α → β) (onWay : β → β) (distinct : tree.labels.Nodup)
    (here : tree.at? position = some subtree) :
    tree.map (fun label => if label ∈ tree.spine position then onWay (image label) else image label)
      = (tree.map image).amend onWay (fun node => ⟨onWay node.label, node.children⟩) position := by
  have there : (tree.map image).at? position = some (subtree.map image) := by rw [at?_map, here]; rfl
  refine (map_along image _ onWay distinct here (fun label member _ => if_pos member)
    (fun label _ offWay _ => if_neg offWay)).trans (amend_congr there ?_)
  obtain ⟨top, children⟩ := subtree
  rw [map_mk, map_mk, if_pos (label_mem_spine here)]
  congr 1
  refine List.map_congr_left fun child member => map_congr fun label inChild => if_neg ?_
  exact not_mem_spine_of_child distinct here member inChild

/-- In a tree of distinct labels, changing the image of one label is a change of the image tree at
its position. -/
theorem map_single [DecidableEq α] (image : α → β) (change : β → β) (distinct : tree.labels.Nodup)
    (here : tree.at? position = some subtree) :
    tree.map (fun label => if label = subtree.label then change (image label) else image label)
      = (tree.map image).amend id (fun node => ⟨change node.label, node.children⟩) position := by
  have there : (tree.map image).at? position = some (subtree.map image) := by rw [at?_map, here]; rfl
  have apart : ∀ label, label ∉ subtree.labels → label ≠ subtree.label := by
    rintro _ outside rfl
    exact outside (label_mem_labels subtree)
  refine (map_along image _ id distinct here (fun label _ outside => if_neg (apart label outside))
    (fun label _ _ outside => if_neg (apart label outside))).trans (amend_congr there ?_)
  have subDistinct := distinct_of_at? distinct here
  obtain ⟨top, children⟩ := subtree
  rw [labels_mk, List.nodup_cons] at subDistinct
  rw [map_mk, map_mk, if_pos rfl]
  congr 1
  refine List.map_congr_left fun child member => map_congr fun label inChild => if_neg ?_
  rintro rfl
  exact subDistinct.1 (List.mem_flatMap.mpr ⟨child, member, inChild⟩)

end CodeCensus.Rose
